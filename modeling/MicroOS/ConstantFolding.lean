import MicroOS.X86

/-!
The compiler evaluates a constant expression itself, and for any other one emits code for a stack machine. The main theorem is
`folding_exact`: in which expressions both give the same value, in all parts that are evaluated.
-/
namespace MicroOS.ConstantFolding
open X86
open Option (bind_some isSome_iff_exists some.inj some.injEq)

inductive NodeKind where
  | ND_ADD | ND_SUB | ND_MUL | ND_DIV | ND_MOD | ND_BITAND | ND_BITOR | ND_BITXOR | ND_SHL | ND_SHR
  | ND_EQ | ND_NE | ND_LT | ND_LE

/-- The nodes of integer expressions. -/
inductive Node where
  | ND_NUM (val : Int)
  | binary (kind : NodeKind) (lhs rhs : Node)
  | ND_NOT (lhs : Node)
  | ND_BITNOT (lhs : Node)
  | ND_LOGAND (lhs rhs : Node)
  | ND_LOGOR (lhs rhs : Node)
  | ND_TERNARY (cond yes els : Node)
  | ND_COMMA (lhs rhs : Node)

/-- A value that an int holds. -/
def value (i : Int) : Option Word := if - 2 ^ 31 ≤ i ∧ i < 2 ^ 31 then some (.ofInt 32 i) else none

def truth (b : Bool) : Word := if b then 1 else 0

/-- The operators of C, where they have a value. -/
def fold (a b : Word) : NodeKind → Option Word
  | .ND_ADD => value (a.toInt + b.toInt)
  | .ND_SUB => value (a.toInt - b.toInt)
  | .ND_MUL => value (a.toInt * b.toInt)
  | .ND_DIV => if b = 0 then none else value (a.toInt.tdiv b.toInt)
  | .ND_MOD => if b = 0 then none else (value (a.toInt.tdiv b.toInt)).bind fun _ => value (a.toInt.tmod b.toInt)
  | .ND_BITAND => some (a &&& b)
  | .ND_BITOR => some (a ||| b)
  | .ND_BITXOR => some (a ||| b)
  | .ND_SHL => if b.toNat < 32 then value (a.toInt * 2 ^ b.toNat) else none
  | .ND_SHR => if b.toNat < 32 then value (a.toInt / 2 ^ b.toNat) else none
  | .ND_EQ => some (truth (a = b))
  | .ND_NE => some (truth (a ≠ b))
  | .ND_LT => some (truth (a.toInt < b.toInt))
  | .ND_LE => some (truth (a.toInt ≤ b.toInt))

/-- `none` where a value does not fit an int or an operator has none. -/
def eval2 : Node → Option Word
  | .ND_NUM val => value val
  | .binary kind lhs rhs => (eval2 lhs).bind fun a => (eval2 rhs).bind fun b => fold a b kind
  | .ND_NOT lhs => (eval2 lhs).map fun a => truth (a = 0)
  | .ND_BITNOT lhs => (eval2 lhs).map fun a => ~~~ a
  | .ND_LOGAND lhs rhs =>
    (eval2 lhs).bind fun a => if a = 0 then some 0 else (eval2 rhs).map fun b => truth (b ≠ 0)
  | .ND_LOGOR lhs rhs =>
    (eval2 lhs).bind fun a => if a = 0 then (eval2 rhs).map fun b => truth (b ≠ 0) else some 1
  | .ND_TERNARY cond yes els => (eval2 cond).bind fun c => if c = 0 then eval2 els else eval2 yes
  | .ND_COMMA _ rhs => eval2 rhs

inductive LabelName where
  | L_else | L_end | L_false | L_true
deriving DecidableEq

/-- `.L.name.seq`. -/
structure Label where
  name : LabelName
  seq : Nat
deriving DecidableEq

def gen_binary (kind : NodeKind) : Program Label :=
  [.pop .edi,.pop .eax] ++
  (match kind with
  | .ND_ADD => [.add .eax .edi]
  | .ND_SUB => [.sub .eax .edi]
  | .ND_MUL => [.imul .eax .edi]
  | .ND_DIV => [.xor .edx .edx,.idiv .edi]
  | .ND_MOD => [.xor .edx .edx,.idiv .edi,.mov .eax .edx]
  | .ND_BITAND => [.and .eax .edi]
  | .ND_BITOR => [.or .eax .edi]
  | .ND_BITXOR => [.xor .eax .edi]
  | .ND_SHL => [.mov .ecx .edi,.shl_cl .eax]
  | .ND_SHR => [.mov .ecx .edi,.sar_cl .eax]
  | .ND_EQ => [.cmp .eax .edi,.set_al .e,.and_imm .eax 0xff]
  | .ND_NE => [.cmp .eax .edi,.set_al .ne,.and_imm .eax 0xff]
  | .ND_LT => [.cmp .eax .edi,.set_al .l,.and_imm .eax 0xff]
  | .ND_LE => [.cmp .eax .edi,.set_al .le,.and_imm .eax 0xff]) ++
  [.push .eax]

/-- The code for a node, and `labelseq` behind it. -/
def gen : Node → Nat → Program Label × Nat
  | .ND_NUM val,labelseq =>
    if - 2 ^ 31 ≤ val ∧ val < 2 ^ 31 then ([.push_imm (.ofInt 32 val)],labelseq)
    else ([.mov_imm .eax (.ofInt 32 val),.push .eax],labelseq)
  | .binary kind lhs rhs,labelseq =>
    let l := gen lhs labelseq
    let r := gen rhs l.2
    (l.1 ++ r.1 ++ gen_binary kind,r.2)
  | .ND_NOT lhs,labelseq =>
    let l := gen lhs labelseq
    (l.1 ++ [.pop .eax,.cmp_imm .eax 0,.set_al .e,.and_imm .eax 0xff,.push .eax],l.2)
  | .ND_BITNOT lhs,labelseq =>
    let l := gen lhs labelseq
    (l.1 ++ [.pop .eax,.not .eax,.push .eax],l.2)
  | .ND_LOGAND lhs rhs,seq =>
    let l := gen lhs (seq + 1)
    let r := gen rhs l.2
    (l.1 ++ [.pop .eax,.cmp_imm .eax 0,.jcc .e ⟨.L_false,seq⟩] ++ r.1 ++ [.pop .eax,.cmp_imm .eax 0,.jcc .e ⟨.L_false,seq⟩,
      .push_imm 1,.jmp ⟨.L_end,seq⟩,.label ⟨.L_false,seq⟩,.push_imm 0,.label ⟨.L_end,seq⟩],r.2)
  | .ND_LOGOR lhs rhs,seq =>
    let l := gen lhs (seq + 1)
    let r := gen rhs l.2
    (l.1 ++ [.pop .eax,.cmp_imm .eax 0,.jcc .ne ⟨.L_true,seq⟩] ++ r.1 ++ [.pop .eax,.cmp_imm .eax 0,.jcc .ne ⟨.L_true,seq⟩,
      .push_imm 0,.jmp ⟨.L_end,seq⟩,.label ⟨.L_true,seq⟩,.push_imm 1,.label ⟨.L_end,seq⟩],r.2)
  | .ND_TERNARY cond yes els,seq =>
    let c := gen cond (seq + 1)
    let y := gen yes c.2
    let e := gen els y.2
    (c.1 ++ [.pop .eax,.cmp_imm .eax 0,.jcc .e ⟨.L_else,seq⟩] ++ y.1 ++ [.jmp ⟨.L_end,seq⟩,.label ⟨.L_else,seq⟩] ++ e.1 ++
      [.label ⟨.L_end,seq⟩],e.2)
  | .ND_COMMA lhs rhs,labelseq =>
    let l := gen lhs labelseq
    let r := gen rhs l.2
    (l.1 ++ [.drop] ++ r.1,r.2)

/-- The quotient and the remainder of an unsigned number by a signed one, where the quotient fits. -/
def unsigned_division (a b : Word) : Option (Word × Word) :=
  if b = 0 then none
  else if - 2 ^ 31 ≤ (a.toNat : Int).tdiv b.toInt ∧ (a.toNat : Int).tdiv b.toInt < 2 ^ 31 then
    some (.ofInt 32 ((a.toNat : Int).tdiv b.toInt),.ofInt 32 ((a.toNat : Int).tmod b.toInt))
  else none

def machine (a b : Word) : NodeKind → Option Word
  | .ND_ADD => some (a + b)
  | .ND_SUB => some (a - b)
  | .ND_MUL => some (a * b)
  | .ND_DIV => (unsigned_division a b).map Prod.fst
  | .ND_MOD => (unsigned_division a b).map Prod.snd
  | .ND_BITAND => some (a &&& b)
  | .ND_BITOR => some (a ||| b)
  | .ND_BITXOR => some (a ^^^ b)
  | .ND_SHL => some (a <<< (b.toNat % 32))
  | .ND_SHR => some (a.sshiftRight (b.toNat % 32))
  | .ND_EQ => some (truth (a = b))
  | .ND_NE => some (truth (a ≠ b))
  | .ND_LT => some (truth (a.toInt < b.toInt))
  | .ND_LE => some (truth (a.toInt ≤ b.toInt))

/-- The value that the code leaves; `none` where it traps. -/
def result : Node → Option Word
  | .ND_NUM val => some (.ofInt 32 val)
  | .binary kind lhs rhs => (result lhs).bind fun a => (result rhs).bind fun b => machine a b kind
  | .ND_NOT lhs => (result lhs).bind fun a => some (truth (a = 0))
  | .ND_BITNOT lhs => (result lhs).bind fun a => some (~~~ a)
  | .ND_LOGAND lhs rhs =>
    (result lhs).bind fun a => if a = 0 then some 0 else (result rhs).bind fun b => some (truth (b ≠ 0))
  | .ND_LOGOR lhs rhs =>
    (result lhs).bind fun a => if a = 0 then (result rhs).bind fun b => some (truth (b ≠ 0)) else some 1
  | .ND_TERNARY cond yes els => (result cond).bind fun c => if c = 0 then result els else result yes
  | .ND_COMMA lhs rhs => (result lhs).bind fun _ => result rhs

/-- From a configuration the code comes to its end with one more value on the stack, or it traps. -/
def Outcome (prog : Program Label) (c : Config Label) (rest : Program Label) (stack : List Word) : Option Word → Prop
  | some v => ∃ s, Steps prog c (s,rest) ∧ s.stack = v :: stack
  | none => ∃ d, Steps prog c d ∧ Trapped prog d

variable {prog : Program Label} {stack : List Word} {r : Option Word}

theorem outcome_after {rest : Program Label} {a b : Config Label}
    (first : Steps prog a b) (later : Outcome prog b rest stack r) : Outcome prog a rest stack r := by
  cases r with
  | some v =>
    obtain ⟨s,runs,top⟩ := later
    exact ⟨s,first.trans runs,top⟩
  | none =>
    obtain ⟨d,runs,trapped⟩ := later
    exact ⟨d,first.trans runs,trapped⟩

/-- Code that goes on with the value that was left. -/
theorem outcome_bind {rest rest' : Program Label} {a : Config Label} {stack' : List Word}
    {f : Word → Option Word} (first : Outcome prog a rest' stack' r)
    (later : ∀ v s, s.stack = v :: stack' → Outcome prog (s,rest') rest stack (f v)) : Outcome prog a rest stack (r.bind f) := by
  cases r with
  | some v =>
    obtain ⟨s,runs,top⟩ := first
    exact outcome_after runs (later v s top)
  | none => exact first

/-- Code that goes on with the value on the stack. -/
theorem outcome_then {rest rest' : Program Label} {a : Config Label}
    (first : Outcome prog a rest' stack r) (later : ∀ s : Cpu, ∃ t : Cpu, Steps prog (s,rest') (t,rest) ∧ t.stack = s.stack) :
    Outcome prog a rest stack r := by
  cases r with
  | some v =>
    obtain ⟨s,runs,top⟩ := first
    obtain ⟨t,runs',same⟩ := later s
    exact ⟨t,runs.trans runs',same.trans top⟩
  | none => exact first

theorem outcome_straight {prog code : Program Label} (no_jumps : ∀ i ∈ code, straight i = true) {s : Cpu} (rest : Program Label)
    {stack : List Word} {r : Option Word} (computes : (exec_all s code).map Cpu.stack = r.map (· :: stack)) :
    Outcome prog (s,code ++ rest) rest stack r := by
  obtain ⟨runs,traps⟩ := straight_runs prog no_jumps s rest
  cases r with
  | some v =>
    obtain ⟨t,done,top⟩ := Option.map_eq_some_iff.1 computes
    exact ⟨t,runs t done,top⟩
  | none => exact traps (Option.map_eq_none_iff.1 computes)

/-- `set` and `and` leave one bit. -/
theorem set_bit (x : Word) (b : Bool) : (x &&& 0xFFFFFF00 ||| if b then 1 else 0) &&& 0xff = truth b := by
  have low : x &&& 0xFFFFFF00 &&& (0xff : Word) = 0 := by
    rw [BitVec.and_assoc,show (0xFFFFFF00 : Word) &&& 0xff = 0 from rfl]
    simp
  have bit : (if b then 1 else 0 : Word) &&& 0xff = truth b := by
    cases b <;> rfl
  rw [BitVec.and_or_distrib_right,low,bit]
  simp

theorem dividend (a : Word) : ((0 : Word) ++ a).toInt = a.toNat := by
  have small := a.isLt
  have value : ((0 : Word) ++ a).toNat = a.toNat := by
    rw [BitVec.toNat_append]
    simp
  rw [BitVec.toInt_eq_toNat_cond,value,if_pos (by omega)]

theorem gen_binary_straight (kind : NodeKind) : ∀ i ∈ gen_binary kind, straight i = true := by
  cases kind <;> simp [gen_binary,straight]

theorem divide_computes {s : Cpu} (none_above : s.regs .edx = 0) (b : Word) :
    divide s b = (unsigned_division (s.regs .eax) b).map fun q => set_reg (set_reg s .eax q.1) .edx q.2 := by
  unfold divide unsigned_division
  rw [none_above,dividend]
  dsimp only
  split
  · rfl
  · split <;> rfl

/-- `set` leaves the truth of the condition. -/
theorem set_computes (s : Cpu) (c : Cond) :
    (exec_all s ([.set_al c,.and_imm .eax 0xff,.push .eax] : Program Label)).map Cpu.stack = some (truth (holds s c) :: s.stack) := by
  have bit := set_bit (s.regs .eax) (holds s c)
  simpa [exec_all,exec,set_reg] using bit

/-- So does it behind a comparison. -/
theorem compare_computes (s : Cpu) (a b : Word) (c : Cond) :
    (exec_all (X86.compare s a b) ([.set_al c,.and_imm .eax 0xff,.push .eax] : Program Label)).map Cpu.stack =
      some (truth (ordered a b c) :: s.stack) := by
  rw [set_computes,holds_compare]
  rfl

theorem gen_binary_computes (kind : NodeKind) {s : Cpu} {a b : Word} (top : s.stack = b :: a :: stack) :
    (exec_all s (gen_binary kind)).map Cpu.stack = (machine a b kind).map (· :: stack) := by
  have popped : ∀ rest : Program Label, exec_all s (.pop .edi :: .pop .eax :: rest) =
      exec_all { set_reg (set_reg s .edi b) .eax a with stack := stack } rest := by
    intro rest
    simp [exec_all,exec,top,set_reg]
  have compared : ∀ rest : Program Label, exec_all { set_reg (set_reg s .edi b) .eax a with stack := stack } (.cmp .eax .edi :: rest) =
      exec_all (X86.compare { set_reg (set_reg s .edi b) .eax a with stack := stack } a b) rest := fun _ => rfl
  refine (congrArg (Option.map Cpu.stack) (popped _)).trans ?_
  cases kind with
  | ND_DIV =>
    simp [exec_all,exec,set_reg,machine,divide_computes]
    cases unsigned_division a b <;> rfl
  | ND_MOD =>
    simp [exec_all,exec,set_reg,machine,divide_computes]
    cases unsigned_division a b <;> rfl
  | ND_EQ => exact (congrArg _ (compared _)).trans (compare_computes _ a b .e)
  | ND_NE => exact (congrArg _ (compared _)).trans (compare_computes _ a b .ne)
  | ND_LT => exact (congrArg _ (compared _)).trans (compare_computes _ a b .l)
  | ND_LE => exact (congrArg _ (compared _)).trans (compare_computes _ a b .le)
  | _ => simp [exec_all,exec,set_reg,machine]

/-- Different labels, with numbers from a range. -/
structure Within (first last : Nat) (found : List Label) : Prop where
  le : first ≤ last
  nodup : found.Nodup
  inside : ∀ l ∈ found, first ≤ l.seq ∧ l.seq < last

theorem within_append {a b c : Nat} {found found' : List Label} (first : Within a b found) (second : Within b c found') :
    Within a c (found ++ found') := by
  have le := first.le
  have le' := second.le
  refine ⟨by omega,List.nodup_append.2 ⟨first.nodup,second.nodup,fun l member l' member' same => ?_⟩,fun l member => ?_⟩
  · have before := (first.inside l member).2
    have behind := (second.inside l' member').1
    rw [same] at before
    omega
  · rcases List.mem_append.1 member with member | member
    · have inside := first.inside l member
      omega
    · have inside := second.inside l member
      omega

/-- The two labels that a node has itself come before the ones of its parts. -/
theorem within_own {seq last : Nat} {found found' : List Label} {x y : LabelName} (parts : Within (seq + 1) last (found ++ found'))
    (different : x ≠ y) : Within seq last (found ++ ⟨x,seq⟩ :: (found' ++ [⟨y,seq⟩])) := by
  have order : (found ++ (⟨x,seq⟩ : Label) :: (found' ++ [⟨y,seq⟩])).Perm (⟨x,seq⟩ :: ⟨y,seq⟩ :: (found ++ found')) := by
    refine List.perm_middle.trans (List.Perm.cons _ ?_)
    rw [← List.append_assoc]
    exact List.perm_append_singleton ..
  have later : ∀ name, (⟨name,seq⟩ : Label) ∉ found ++ found' := by
    intro name member
    have inside := (parts.inside _ member).1
    dsimp only at inside
    omega
  have le := parts.le
  refine ⟨by omega,order.nodup_iff.2 ?_,fun l member => ?_⟩
  · rw [List.nodup_cons,List.nodup_cons,List.mem_cons,not_or]
    exact ⟨⟨fun same => different (congrArg Label.name same),later x⟩,later y,parts.nodup⟩
  · rcases List.mem_cons.1 (order.mem_iff.1 member) with rfl | member
    · exact ⟨le_rfl,le⟩
    · rcases List.mem_cons.1 member with rfl | member
      · exact ⟨le_rfl,le⟩
      · have inside := parts.inside l member
        omega

theorem gen_labels (node : Node) (n : Nat) : Within n (gen node n).2 (labels (gen node n).1) := by
  induction node generalizing n with
  | ND_NUM val =>
    rw [gen]
    split <;> exact ⟨le_rfl,List.nodup_nil,by simp [label_of]⟩
  | binary kind lhs rhs ihl ihr =>
    have none : labels (gen_binary kind) = [] := by cases kind <;> rfl
    simp only [gen,labels_append,none,List.append_nil]
    exact within_append (ihl n) (ihr _)
  | ND_NOT lhs ih =>
    simpa [gen,label_of] using ih n
  | ND_BITNOT lhs ih =>
    simpa [gen,label_of] using ih n
  | ND_LOGAND lhs rhs ihl ihr =>
    have parts := within_append (ihl (n + 1)) (ihr (gen lhs (n + 1)).2)
    have own := @within_own _ _ _ [] .L_false .L_end (by rwa [List.append_nil]) (by decide)
    simpa [gen,label_of] using own
  | ND_LOGOR lhs rhs ihl ihr =>
    have parts := within_append (ihl (n + 1)) (ihr (gen lhs (n + 1)).2)
    have own := @within_own _ _ _ [] .L_true .L_end (by rwa [List.append_nil]) (by decide)
    simpa [gen,label_of] using own
  | ND_TERNARY cond yes els ihc ihy ihe =>
    have parts := within_append (within_append (ihc (n + 1)) (ihy _)) (ihe _)
    have own := within_own (x := .L_else) (y := .L_end) parts (by decide)
    simpa [gen,label_of] using own
  | ND_COMMA lhs rhs ihl ihr =>
    have parts := within_append (ihl n) (ihr (gen lhs n).2)
    simpa [gen,label_of] using parts

section Placed
variable {prog rest : Program Label} (unique : (labels prog).Nodup)
include unique

theorem jmp_runs {l : Label} (placed : .label l :: rest <:+ prog) (s : Cpu) (next : Program Label) :
    Steps prog (s,.jmp l :: next) (s,rest) := by
  apply steps_one
  rw [step,find_label_suffix unique placed]
  rfl

/-- The value that was left is compared with 0, and the code goes on behind the label or with the next instruction. -/
theorem branch_runs {l : Label} (placed : .label l :: rest <:+ prog) {s : Cpu} {v : Word} {stack : List Word}
    (top : s.stack = v :: stack) (c : Cond) (next : Program Label) :
    ∃ t : Cpu, t.stack = stack ∧
      Steps prog (s,.pop .eax :: .cmp_imm .eax 0 :: .jcc c l :: next) (t,if ordered v 0 c then rest else next) := by
  have tested := (@straight_runs _ _ prog [.pop .eax,.cmp_imm .eax 0] (by simp [straight]) s (.jcc c l :: next)).1
    (X86.compare { set_reg s .eax v with stack := stack } v 0) (by simp [exec_all,exec,top,set_reg])
  refine ⟨X86.compare { set_reg s .eax v with stack := stack } v 0,rfl,tested.trans (steps_one ?_)⟩
  rw [step,holds_compare,find_label_suffix unique placed]
  cases ordered v 0 c <;> rfl

end Placed

theorem suffix_rest {a b : Program Label} (placed : a ++ b <:+ prog) : b <:+ prog := (List.suffix_append a b).trans placed

theorem gen_outcome {prog : Program Label} (unique : (labels prog).Nodup) (node : Node) (n : Nat) {rest : Program Label}
    (placed : (gen node n).1 ++ rest <:+ prog) (s : Cpu) :
    Outcome prog (s,(gen node n).1 ++ rest) rest s.stack (result node) := by
  induction node generalizing n rest s with
  | ND_NUM val =>
    rw [gen]
    split
    · exact outcome_straight (by simp [straight]) rest (by simp [exec_all,exec,result])
    · exact outcome_straight (by simp [straight]) rest (by simp [exec_all,exec,set_reg,result])
  | binary kind lhs rhs ihl ihr =>
    simp only [gen,List.append_assoc] at placed ⊢
    refine outcome_bind (ihl n placed s) fun a t top => ?_
    refine outcome_bind (ihr _ (suffix_rest placed) t) fun b u top' => ?_
    exact outcome_straight (gen_binary_straight kind) rest (gen_binary_computes kind (by rw [top',top]))
  | ND_NOT lhs ih =>
    simp only [gen,List.append_assoc] at placed ⊢
    refine outcome_bind (ih n placed s) fun a t top => ?_
    refine outcome_straight (by simp [straight]) rest ?_
    have compared := compare_computes { set_reg t .eax a with stack := s.stack } a 0 .e
    rw [exec_all,exec,top]
    exact compared
  | ND_BITNOT lhs ih =>
    simp only [gen,List.append_assoc] at placed ⊢
    refine outcome_bind (ih n placed s) fun a t top => ?_
    exact outcome_straight (by simp [straight]) rest (by simp [exec_all,exec,set_reg,top])
  | ND_LOGAND lhs rhs ihl ihr =>
    simp only [gen,List.append_assoc] at placed ⊢
    refine outcome_bind (ihl _ placed s) fun a t top => ?_
    have placed_rhs := suffix_rest (suffix_rest placed)
    have at_false : .label ⟨.L_false,n⟩ :: .push_imm 0 :: .label ⟨.L_end,n⟩ :: rest <:+ prog :=
      suffix_rest (a := [_,_,_,_,_]) (suffix_rest placed_rhs)
    have at_end : .label ⟨.L_end,n⟩ :: rest <:+ prog := suffix_rest (a := [_,_]) at_false
    have no : ∀ u : Cpu, u.stack = s.stack → Outcome prog (u,.push_imm 0 :: .label ⟨.L_end,n⟩ :: rest) rest s.stack (some 0) :=
      fun u same => @outcome_straight _ [.push_imm 0,.label ⟨.L_end,n⟩] (by simp [straight]) _ rest _ _
        (by simp [exec_all,exec,same])
    obtain ⟨u,same,moved⟩ := branch_runs unique at_false top .e _
    refine outcome_after moved ?_
    by_cases zero : a = 0
    · rw [if_pos (by simpa [ordered] using zero),if_pos zero]
      exact no u same
    · rw [if_neg (by simpa [ordered] using zero),if_neg zero]
      refine outcome_bind (ihr _ placed_rhs u) fun b t' top' => ?_
      rw [same] at top'
      obtain ⟨u',same',moved'⟩ := branch_runs unique at_false top' .e _
      refine outcome_after moved' ?_
      by_cases zero' : b = 0
      · rw [if_pos (by simpa [ordered] using zero'),truth,if_neg (by simpa using zero')]
        exact no u' same'
      · rw [if_neg (by simpa [ordered] using zero'),truth,if_pos (by simpa using zero')]
        refine ⟨{ u' with stack := 1 :: u'.stack },?_,by rw [same']⟩
        exact (steps_one rfl).trans (jmp_runs unique at_end _ _)
  | ND_LOGOR lhs rhs ihl ihr =>
    simp only [gen,List.append_assoc] at placed ⊢
    refine outcome_bind (ihl _ placed s) fun a t top => ?_
    have placed_rhs := suffix_rest (suffix_rest placed)
    have at_true : .label ⟨.L_true,n⟩ :: .push_imm 1 :: .label ⟨.L_end,n⟩ :: rest <:+ prog :=
      suffix_rest (a := [_,_,_,_,_]) (suffix_rest placed_rhs)
    have at_end : .label ⟨.L_end,n⟩ :: rest <:+ prog := suffix_rest (a := [_,_]) at_true
    have yes : ∀ u : Cpu, u.stack = s.stack → Outcome prog (u,.push_imm 1 :: .label ⟨.L_end,n⟩ :: rest) rest s.stack (some 1) :=
      fun u same => @outcome_straight _ [.push_imm 1,.label ⟨.L_end,n⟩] (by simp [straight]) _ rest _ _
        (by simp [exec_all,exec,same])
    obtain ⟨u,same,moved⟩ := branch_runs unique at_true top .ne _
    refine outcome_after moved ?_
    by_cases zero : a = 0
    · rw [if_neg (by simpa [ordered] using zero),if_pos zero]
      refine outcome_bind (ihr _ placed_rhs u) fun b t' top' => ?_
      rw [same] at top'
      obtain ⟨u',same',moved'⟩ := branch_runs unique at_true top' .ne _
      refine outcome_after moved' ?_
      by_cases zero' : b = 0
      · rw [if_neg (by simpa [ordered] using zero'),truth,if_neg (by simpa using zero')]
        refine ⟨{ u' with stack := 0 :: u'.stack },?_,by rw [same']⟩
        exact (steps_one rfl).trans (jmp_runs unique at_end _ _)
      · rw [if_pos (by simpa [ordered] using zero'),truth,if_pos (by simpa using zero')]
        exact yes u' same'
    · rw [if_pos (by simpa [ordered] using zero),if_neg zero]
      exact yes u same
  | ND_TERNARY cond yes els ihc ihy ihe =>
    simp only [gen,List.append_assoc] at placed ⊢
    refine outcome_bind (ihc _ placed s) fun a t top => ?_
    have placed_yes := suffix_rest (suffix_rest placed)
    have at_else := suffix_rest (a := [_]) (suffix_rest placed_yes)
    have at_end : .label ⟨.L_end,n⟩ :: rest <:+ prog := suffix_rest (suffix_rest (a := [_]) at_else)
    obtain ⟨u,same,moved⟩ := branch_runs unique at_else top .e _
    refine outcome_after moved ?_
    rw [← same]
    by_cases zero : a = 0
    · rw [if_pos (by simpa [ordered] using zero),if_pos zero]
      have left := ihe _ (suffix_rest (a := [_]) at_else) u
      exact outcome_then left fun t => ⟨t,steps_one rfl,rfl⟩
    · rw [if_neg (by simpa [ordered] using zero),if_neg zero]
      exact outcome_then (ihy _ placed_yes u) fun t => ⟨t,jmp_runs unique at_end t _,rfl⟩
  | ND_COMMA lhs rhs ihl ihr =>
    simp only [gen,List.append_assoc] at placed ⊢
    refine outcome_bind (ihl n placed s) fun a t top => ?_
    refine outcome_after (steps_one ?_) (ihr _ (suffix_rest (a := [.drop]) (suffix_rest placed)) { t with stack := s.stack })
    simp [step,exec,top]

/-- Without jumps into it the code of a node leaves this value on the stack. -/
def Leaves (node : Node) (v : Word) : Prop :=
  ∀ n s, ∃ t : Cpu, Steps (gen node n).1 (s,(gen node n).1) (t,[]) ∧ t.stack = v :: s.stack

theorem leaves_result (node : Node) (v : Word) : Leaves node v ↔ result node = some v := by
  have outcome : ∀ n s, Outcome (gen node n).1 (s,(gen node n).1) [] s.stack (result node) := by
    intro n s
    have whole := @gen_outcome _ (gen_labels node n).nodup node n [] (by simp) s
    rwa [List.append_nil] at whole
  constructor
  · intro leaves
    let s : Cpu := ⟨fun _ => 0,false,false,false,[]⟩
    obtain ⟨t,runs,top⟩ := leaves 0 s
    have done := outcome 0 s
    cases computed : result node with
    | some w =>
      rw [computed] at done
      obtain ⟨u,runs',top'⟩ := done
      have same : t = u := congrArg Prod.fst (steps_unique runs rfl runs' rfl)
      rw [← same,top,List.cons.injEq] at top'
      rw [top'.1]
    | none =>
      rw [computed] at done
      obtain ⟨d,runs',stop,middle⟩ := done
      exact absurd (congrArg Prod.snd (steps_unique runs rfl runs' stop)).symm middle
  · intro computed n s
    have done := outcome n s
    rw [computed] at done
    exact done

/-- The operands with which an operator of the code is the one of C. -/
def careful (a b : Word) : NodeKind → Prop
  | .ND_BITXOR => a &&& b = 0
  | .ND_DIV => 0 ≤ a.toInt
  | .ND_MOD => 0 ≤ a.toInt ∨ (b.toInt ≠ 1 ∧ b.toInt ≠ -1) ∧ b.toInt ∣ a.toInt ∧ b.toInt ∣ 2 ^ 32
  | _ => True

theorem value_some {i : Int} {v : Word} (found : value i = some v) : (- 2 ^ 31 ≤ i ∧ i < 2 ^ 31) ∧ v = .ofInt 32 i := by
  unfold value at found
  split at found
  · rename_i inside
    exact ⟨inside,(some.inj found).symm⟩
  · cases found

/-- Numbers of 32 bits with a sign are known by their last 32 bits. -/
theorem ofInt_injective {i j : Int} (inside : - 2 ^ 31 ≤ i ∧ i < 2 ^ 31) (inside' : - 2 ^ 31 ≤ j ∧ j < 2 ^ 31)
    (same : BitVec.ofInt 32 i = BitVec.ofInt 32 j) : i = j := by
  have parts := congrArg BitVec.toInt same
  rw [BitVec.toInt_ofInt,BitVec.toInt_ofInt,Int.bmod_eq_of_le (by omega) (by omega),Int.bmod_eq_of_le (by omega) (by omega)] at parts
  exact parts

theorem xor_or (a b : Word) : a ||| b = a ^^^ b ↔ a &&& b = 0 := by
  rw [show (0 : Word) = 0#32 from rfl]
  constructor
  · intro same
    apply BitVec.eq_of_getLsbD_eq
    intro i _
    have bit := congrArg (BitVec.getLsbD · i) same
    simp only [BitVec.getLsbD_or,BitVec.getLsbD_xor] at bit
    rw [BitVec.getLsbD_and,BitVec.getLsbD_zero]
    cases one : a.getLsbD i <;> cases two : b.getLsbD i <;> rw [one,two] at bit <;> first | rfl | cases bit
  · intro none
    apply BitVec.eq_of_getLsbD_eq
    intro i _
    have bit := congrArg (BitVec.getLsbD · i) none
    simp only [BitVec.getLsbD_and,BitVec.getLsbD_zero] at bit
    rw [BitVec.getLsbD_or,BitVec.getLsbD_xor]
    cases one : a.getLsbD i <;> cases two : b.getLsbD i <;> rw [one,two] at bit <;> first | rfl | cases bit

theorem toNat_toInt (a : Word) : (a.toNat : Int) = if 0 ≤ a.toInt then a.toInt else a.toInt + 2 ^ 32 := by
  have small := a.isLt
  rw [BitVec.toInt_eq_toNat_cond]
  split <;> split <;> omega

/-- Divisors have either sign. -/
theorem divisor_cases {b : Int} (some : b ≠ 0) (inside : - 2 ^ 31 ≤ b ∧ b < 2 ^ 31) :
    ∃ c, 0 < c ∧ c ≤ 2 ^ 31 ∧ (b = c ∧ c < 2 ^ 31 ∨ b = -c) := by
  rcases lt_or_gt_of_ne some with neg | pos
  · exact ⟨-b,by omega,by omega,.inr (by omega)⟩
  · exact ⟨b,pos,by omega,.inl ⟨rfl,inside.2⟩⟩

/-- A negative number that is taken for an unsigned one has a quotient with the other sign. -/
theorem quotient_unsigned {a b : Int} (neg : a < 0) (low : - 2 ^ 31 ≤ a) (some : b ≠ 0)
    (inside : - 2 ^ 31 ≤ b ∧ b < 2 ^ 31) : (a + 2 ^ 32).tdiv b ≠ a.tdiv b := by
  obtain ⟨c,pos,small,sign⟩ := divisor_cases some inside
  have large : 1 ≤ (a + 2 ^ 32) / c := (Int.le_ediv_iff_mul_le pos).2 (by omega)
  have other : 0 ≤ -a / c := Int.ediv_nonneg (by omega) pos.le
  have first : (a + 2 ^ 32).tdiv b = (a + 2 ^ 32) / b := Int.tdiv_eq_ediv_of_nonneg (by omega)
  have second : a.tdiv b = -(-a / b) := by
    rw [← Int.tdiv_eq_ediv_of_nonneg (by omega),Int.neg_tdiv,neg_neg]
  rw [first,second]
  rcases sign with ⟨rfl,_⟩ | rfl
  · omega
  · rw [Int.ediv_neg,Int.ediv_neg]
    omega

/-- Its remainder is right only where there is none, and the quotient fits unless the divisor is 1 or -1. -/
theorem remainder_unsigned {a b : Int} (neg : a < 0) (low : - 2 ^ 31 ≤ a) (some : b ≠ 0) (inside : - 2 ^ 31 ≤ b ∧ b < 2 ^ 31)
    (fits : - 2 ^ 31 ≤ a.tdiv b ∧ a.tdiv b < 2 ^ 31) :
    ((- 2 ^ 31 ≤ (a + 2 ^ 32).tdiv b ∧ (a + 2 ^ 32).tdiv b < 2 ^ 31) ∧ (a + 2 ^ 32).tmod b = a.tmod b) ↔
      (b ≠ 1 ∧ b ≠ -1) ∧ b ∣ a ∧ b ∣ 2 ^ 32 := by
  have quotient : (a + 2 ^ 32).tdiv b = (a + 2 ^ 32) / b := Int.tdiv_eq_ediv_of_nonneg (by omega)
  have above : 0 ≤ (a + 2 ^ 32).tmod b := Int.tmod_nonneg b (by omega)
  have below : a.tmod b ≤ 0 := by
    have flipped := Int.tmod_nonneg b (a := -a) (by omega)
    rw [Int.neg_tmod] at flipped
    omega
  constructor
  · intro ⟨range,same⟩
    have divides : b ∣ a := Int.dvd_of_tmod_eq_zero (by omega)
    have divides' : b ∣ a + 2 ^ 32 := Int.dvd_of_tmod_eq_zero (by omega)
    refine ⟨⟨?_,?_⟩,divides,(Int.dvd_add_right divides).1 divides'⟩
    · rintro rfl
      rw [quotient,Int.ediv_one] at range
      omega
    · rintro rfl
      rw [quotient,Int.ediv_neg,Int.ediv_one] at range
      rw [Int.tdiv_neg,Int.tdiv_one] at fits
      omega
  · intro ⟨⟨one,minus⟩,divides,power⟩
    refine ⟨?_,?_⟩
    · obtain ⟨c,pos,small,sign⟩ := divisor_cases some inside
      have nonneg : 0 ≤ (a + 2 ^ 32) / c := Int.ediv_nonneg (by omega) pos.le
      have bound : (a + 2 ^ 32) / c < 2 ^ 31 := (Int.ediv_lt_iff_lt_mul pos).2 (by omega)
      rw [quotient]
      rcases sign with ⟨rfl,_⟩ | rfl
      · omega
      · rw [Int.ediv_neg]
        omega
    · rw [Int.tmod_eq_zero_of_dvd divides,Int.tmod_eq_zero_of_dvd (Int.dvd_add divides power)]

theorem toInt_inside (a : Word) : - 2 ^ 31 ≤ a.toInt ∧ a.toInt < 2 ^ 31 := ⟨BitVec.le_toInt a,BitVec.toInt_lt⟩

theorem toInt_ne_zero {b : Word} (some : b ≠ 0) : b.toInt ≠ 0 := fun zero => some (BitVec.eq_of_toInt_eq (by simpa using zero))

theorem div_careful {a b v : Word} (found : fold a b .ND_DIV = some v) :
    machine a b .ND_DIV = some v ↔ 0 ≤ a.toInt := by
  rw [fold] at found
  by_cases zero : b = 0
  · rw [if_pos zero] at found
    cases found
  · rw [if_neg zero] at found
    obtain ⟨inside,rfl⟩ := value_some found
    rw [machine,unsigned_division,if_neg zero,toNat_toInt]
    by_cases nonneg : 0 ≤ a.toInt
    · rw [if_pos nonneg,if_pos inside]
      exact iff_of_true rfl nonneg
    · rw [if_neg nonneg]
      refine iff_of_false (fun same => ?_) nonneg
      split at same
      · rename_i inside'
        have equal := ofInt_injective inside' inside (some.inj same)
        exact quotient_unsigned (by omega) (toInt_inside a).1 (toInt_ne_zero zero) (toInt_inside b) equal
      · cases same

theorem mod_careful {a b v : Word} (found : fold a b .ND_MOD = some v) :
    machine a b .ND_MOD = some v ↔ careful a b .ND_MOD := by
  rw [fold] at found
  by_cases zero : b = 0
  · rw [if_pos zero] at found
    cases found
  · rw [if_neg zero,Option.bind_eq_some_iff] at found
    obtain ⟨_,quotient,remainder⟩ := found
    have fits := (value_some quotient).1
    obtain ⟨inside,rfl⟩ := value_some remainder
    rw [machine,unsigned_division,if_neg zero,toNat_toInt,careful]
    by_cases nonneg : 0 ≤ a.toInt
    · rw [if_pos nonneg,if_pos fits]
      exact iff_of_true rfl (.inl nonneg)
    · rw [if_neg nonneg,or_iff_right nonneg,
        ← remainder_unsigned (by omega) (toInt_inside a).1 (toInt_ne_zero zero) (toInt_inside b) fits]
      split
      · rename_i inside'
        refine ⟨fun same => ⟨inside',ofInt_injective ?_ inside (some.inj same)⟩,fun both => ?_⟩
        · obtain ⟨c,pos,small,sign⟩ := divisor_cases (toInt_ne_zero zero) (toInt_inside b)
          have above := Int.tmod_nonneg b.toInt (a := a.toInt + 2 ^ 32) (by have low := (toInt_inside a).1; omega)
          have below := Int.tmod_lt_of_pos (a.toInt + 2 ^ 32) pos
          have same : (a.toInt + 2 ^ 32).tmod b.toInt = (a.toInt + 2 ^ 32).tmod c := by
            rcases sign with ⟨equal,_⟩ | equal
            · rw [equal]
            · rw [equal,Int.tmod_neg]
          omega
        · rw [← both.2]
          rfl
      · rename_i outside
        exact iff_of_false (fun same => by cases same) fun both => outside both.1

theorem fold_machine {kind : NodeKind} {a b v : Word} (found : fold a b kind = some v) :
    machine a b kind = some v ↔ careful a b kind := by
  have same : ∀ {w : Word}, v = w → (some w = some v ↔ True) := fun equal => by simp [equal]
  cases kind with
  | ND_DIV => exact div_careful found
  | ND_MOD => exact mod_careful found
  | ND_BITXOR => rw [machine,← found,fold,some.injEq,careful,← xor_or,eq_comm]
  | ND_ADD =>
    refine same ?_
    rw [(value_some found).2,BitVec.ofInt_add,BitVec.ofInt_toInt,BitVec.ofInt_toInt]
  | ND_SUB =>
    refine same ?_
    rw [(value_some found).2,Int.sub_eq_add_neg,BitVec.ofInt_add,BitVec.ofInt_neg,BitVec.ofInt_toInt,BitVec.ofInt_toInt,
      BitVec.sub_eq_add_neg]
  | ND_MUL =>
    refine same ?_
    rw [(value_some found).2,BitVec.ofInt_mul,BitVec.ofInt_toInt,BitVec.ofInt_toInt]
  | ND_SHL =>
    rw [fold] at found
    split at found
    · rename_i small
      have power : BitVec.ofInt 32 (2 ^ b.toNat) = BitVec.twoPow 32 b.toNat := by
        apply BitVec.eq_of_toNat_eq
        rw [BitVec.toNat_twoPow,show (2 : Int) ^ b.toNat = ((2 ^ b.toNat : Nat) : Int) by norm_cast,BitVec.ofInt_natCast,
          BitVec.toNat_ofNat]
      refine same ?_
      rw [(value_some found).2,BitVec.ofInt_mul,BitVec.ofInt_toInt,Nat.mod_eq_of_lt small,power,BitVec.shiftLeft_eq_mul_twoPow]
    · cases found
  | ND_SHR =>
    rw [fold] at found
    split at found
    · rename_i small
      refine same ?_
      rw [(value_some found).2,Nat.mod_eq_of_lt small,← BitVec.ofInt_toInt (x := a.sshiftRight b.toNat),BitVec.toInt_sshiftRight,
        Int.shiftRight_eq_div_pow]
      norm_cast
    · cases found
  | _ => exact same (some.inj found).symm

/-- A property of an expression and of all parts of it that `eval2` looks at: of a comma, the right one. -/
def Everywhere (p : Node → Prop) : Node → Prop
  | .ND_NUM val => p (.ND_NUM val)
  | .binary kind lhs rhs => p (.binary kind lhs rhs) ∧ Everywhere p lhs ∧ Everywhere p rhs
  | .ND_NOT lhs => p (.ND_NOT lhs) ∧ Everywhere p lhs
  | .ND_BITNOT lhs => p (.ND_BITNOT lhs) ∧ Everywhere p lhs
  | .ND_LOGAND lhs rhs => p (.ND_LOGAND lhs rhs) ∧ Everywhere p lhs ∧ (eval2 lhs ≠ some 0 → Everywhere p rhs)
  | .ND_LOGOR lhs rhs => p (.ND_LOGOR lhs rhs) ∧ Everywhere p lhs ∧ (eval2 lhs = some 0 → Everywhere p rhs)
  | .ND_TERNARY cond yes els => p (.ND_TERNARY cond yes els) ∧ Everywhere p cond ∧
      (eval2 cond ≠ some 0 → Everywhere p yes) ∧ (eval2 cond = some 0 → Everywhere p els)
  | .ND_COMMA lhs rhs => p (.ND_COMMA lhs rhs) ∧ Everywhere p rhs

/-- The expression has a value, which an int holds. -/
def Valued (node : Node) : Prop := (eval2 node).isSome = true

/-- The code leaves the value that the compiler computes. -/
def Agrees (node : Node) : Prop := ∀ v, eval2 node = some v → Leaves node v

/-- The operator of the expression, if it has one of two operands, is used with operands that it can be used with; the code
    of what a comma drops comes to its end. -/
def Careful : Node → Prop
  | .binary kind lhs rhs => ∀ a b, eval2 lhs = some a → eval2 rhs = some b → careful a b kind
  | .ND_COMMA lhs _ => ∃ v, Leaves lhs v
  | _ => True

theorem everywhere_self {p : Node → Prop} {node : Node} (all : Everywhere p node) : p node := by
  cases node with
  | ND_NUM val => exact all
  | _ => exact all.1

theorem agrees_of_result {node : Node} (same : result node = eval2 node) : Agrees node := by
  intro v found
  rw [leaves_result,same,found]

/-- A part that agrees leaves its value. -/
theorem part_result {node : Node} (valued : Everywhere Valued node) (agrees : Everywhere Agrees node) :
    ∃ v, eval2 node = some v ∧ result node = some v := by
  obtain ⟨v,found⟩ := isSome_iff_exists.1 (everywhere_self valued)
  exact ⟨v,found,(leaves_result node v).1 (everywhere_self agrees v found)⟩

/-- An expression agrees in all parts exactly when all operators are used with operands that they can be used with. -/
theorem folding_exact (node : Node) (valued : Everywhere Valued node) : Everywhere Agrees node ↔ Everywhere Careful node := by
  induction node with
  | ND_NUM val =>
    refine iff_of_true (agrees_of_result ?_) trivial
    obtain ⟨v,found⟩ := isSome_iff_exists.1 valued
    rw [eval2] at found ⊢
    rw [found,(value_some found).2,result]
  | binary kind lhs rhs ihl ihr =>
    obtain ⟨here,left,right⟩ := valued
    rw [Everywhere,Everywhere,ihl left,ihr right]
    refine and_congr_left fun parts => ?_
    obtain ⟨a,eval_a,result_a⟩ := part_result left ((ihl left).2 parts.1)
    obtain ⟨b,eval_b,result_b⟩ := part_result right ((ihr right).2 parts.2)
    obtain ⟨v,found⟩ := isSome_iff_exists.1 here
    have folded : fold a b kind = some v := by
      rw [← found,eval2,eval_a,eval_b]
      rfl
    have computed : result (.binary kind lhs rhs) = machine a b kind := by
      rw [result,result_a,result_b]
      rfl
    rw [Agrees,found,Careful,eval_a,eval_b]
    simp only [some.injEq,forall_eq',leaves_result,computed]
    exact (fold_machine folded).trans ⟨fun ok a' b' same same' => same ▸ same' ▸ ok,fun all => all a b rfl rfl⟩
  | ND_NOT lhs ih =>
    obtain ⟨_,left⟩ := valued
    rw [Everywhere,Everywhere,ih left]
    refine and_congr_left fun part => iff_of_true (agrees_of_result ?_) trivial
    obtain ⟨a,eval_a,result_a⟩ := part_result left ((ih left).2 part)
    rw [result,eval2,eval_a,result_a]
    rfl
  | ND_BITNOT lhs ih =>
    obtain ⟨_,left⟩ := valued
    rw [Everywhere,Everywhere,ih left]
    refine and_congr_left fun part => iff_of_true (agrees_of_result ?_) trivial
    obtain ⟨a,eval_a,result_a⟩ := part_result left ((ih left).2 part)
    rw [result,eval2,eval_a,result_a]
    rfl
  | ND_LOGAND lhs rhs ihl ihr =>
    obtain ⟨_,left,right⟩ := valued
    rw [Everywhere,Everywhere,ihl left,forall_congr' fun some => ihr (right some)]
    refine and_congr_left fun parts => iff_of_true (agrees_of_result ?_) trivial
    obtain ⟨a,eval_a,result_a⟩ := part_result left ((ihl left).2 parts.1)
    rw [result,eval2,eval_a,result_a,bind_some,bind_some]
    by_cases zero : a = 0
    · rw [if_pos zero,if_pos zero]
    · have some : eval2 lhs ≠ some 0 := by simpa [eval_a] using zero
      obtain ⟨b,eval_b,result_b⟩ := part_result (right some) ((ihr (right some)).2 (parts.2 some))
      rw [if_neg zero,if_neg zero,eval_b,result_b]
      rfl
  | ND_LOGOR lhs rhs ihl ihr =>
    obtain ⟨_,left,right⟩ := valued
    rw [Everywhere,Everywhere,ihl left,forall_congr' fun none => ihr (right none)]
    refine and_congr_left fun parts => iff_of_true (agrees_of_result ?_) trivial
    obtain ⟨a,eval_a,result_a⟩ := part_result left ((ihl left).2 parts.1)
    rw [result,eval2,eval_a,result_a,bind_some,bind_some]
    by_cases zero : a = 0
    · have none : eval2 lhs = some 0 := by rw [eval_a,zero]
      obtain ⟨b,eval_b,result_b⟩ := part_result (right none) ((ihr (right none)).2 (parts.2 none))
      rw [if_pos zero,if_pos zero,eval_b,result_b]
      rfl
    · rw [if_neg zero,if_neg zero]
  | ND_TERNARY cond yes els ihc ihy ihe =>
    obtain ⟨_,test,first,second⟩ := valued
    rw [Everywhere,Everywhere,ihc test,forall_congr' fun some => ihy (first some),forall_congr' fun none => ihe (second none)]
    refine and_congr_left fun parts => iff_of_true (agrees_of_result ?_) trivial
    obtain ⟨c,eval_c,result_c⟩ := part_result test ((ihc test).2 parts.1)
    rw [result,eval2,eval_c,result_c,bind_some,bind_some]
    by_cases zero : c = 0
    · have none : eval2 cond = some 0 := by rw [eval_c,zero]
      obtain ⟨b,eval_b,result_b⟩ := part_result (second none) ((ihe (second none)).2 (parts.2.2 none))
      rw [if_pos zero,if_pos zero,eval_b,result_b]
    · have some : eval2 cond ≠ some 0 := by simpa [eval_c] using zero
      obtain ⟨b,eval_b,result_b⟩ := part_result (first some) ((ihy (first some)).2 (parts.2.1 some))
      rw [if_neg zero,if_neg zero,eval_b,result_b]
  | ND_COMMA lhs rhs _ ihr =>
    obtain ⟨_,right⟩ := valued
    rw [Everywhere,Everywhere,ihr right]
    refine and_congr_left fun part => ?_
    obtain ⟨b,eval_b,result_b⟩ := part_result right ((ihr right).2 part)
    simp only [Agrees,Careful,eval2,eval_b,some.injEq,forall_eq',leaves_result,result]
    cases result lhs with
    | some a => exact iff_of_true result_b ⟨a,rfl⟩
    | none => exact iff_of_false (fun some => by cases some) fun ends => by cases ends.choose_spec

/-- The exclusive or of `9 / 2` and `5 - 2`, behind one that is dropped. -/
theorem folding_exact_four : Everywhere Agrees (.ND_COMMA (.binary .ND_BITXOR (.ND_NUM 1) (.ND_NUM 1))
    (.binary .ND_BITXOR (.binary .ND_DIV (.ND_NUM 9) (.ND_NUM 2)) (.binary .ND_SUB (.ND_NUM 5) (.ND_NUM 2)))) := by
  have valued : Everywhere Valued (.ND_COMMA (.binary .ND_BITXOR (.ND_NUM 1) (.ND_NUM 1))
      (.binary .ND_BITXOR (.binary .ND_DIV (.ND_NUM 9) (.ND_NUM 2)) (.binary .ND_SUB (.ND_NUM 5) (.ND_NUM 2)))) :=
    ⟨rfl,rfl,⟨rfl,rfl,rfl⟩,⟨rfl,rfl,rfl⟩⟩
  have dropped : Leaves (.binary .ND_BITXOR (.ND_NUM 1) (.ND_NUM 1)) 0 := (leaves_result _ _).2 (by decide)
  refine (folding_exact _ valued).2 ⟨⟨0,dropped⟩,fun a b left right => ?_,⟨fun a b left right => ?_,trivial,trivial⟩,?_⟩
  · rw [← some.inj left,← some.inj right,careful]
    decide
  · rw [← some.inj left,careful]
    decide
  · exact ⟨fun _ _ _ _ => trivial,trivial,trivial⟩

/-- `1 ^ 1` is 0, but the compiler takes the or of its operands. -/
theorem xor_wrong : ¬ ∀ node, Everywhere Valued node → Agrees node := by
  intro always
  have leaves := always (.binary .ND_BITXOR (.ND_NUM 1) (.ND_NUM 1)) ⟨rfl,rfl,rfl⟩ 1 rfl
  rw [leaves_result] at leaves
  exact absurd leaves (by decide)

end MicroOS.ConstantFolding
