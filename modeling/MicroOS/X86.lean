import Mathlib.Tactic

/-!
What an expression compiler needs: moves, arithmetic and jumps on 32-bit registers and a stack. A configuration is the machine
with the code that comes next, always a rest of the whole program, in which the jumps look for their labels. Of the flags only
those of a comparison are kept.
-/
namespace MicroOS.X86
variable {Label : Type}

abbrev Word := BitVec 32

inductive Reg where
  | eax | edi | ecx | edx
deriving DecidableEq

/-- Equal, not equal, less, less or equal: what is tested behind `j` and `set`. -/
inductive Cond where
  | e | ne | l | le

inductive Instr (Label : Type) where
  | push_imm (v : Word)
  | push (r : Reg)
  | pop (r : Reg)
  | drop
  | mov (dst src : Reg)
  | mov_imm (dst : Reg) (v : Word)
  | add (dst src : Reg)
  | sub (dst src : Reg)
  | imul (dst src : Reg)
  | and (dst src : Reg)
  | and_imm (dst : Reg) (v : Word)
  | or (dst src : Reg)
  | xor (dst src : Reg)
  | not (dst : Reg)
  | idiv (src : Reg)
  | shl_cl (dst : Reg)
  | sar_cl (dst : Reg)
  | cmp (a b : Reg)
  | cmp_imm (a : Reg) (v : Word)
  | set_al (c : Cond)
  | jcc (c : Cond) (target : Label)
  | jmp (target : Label)
  | label (here : Label)

structure Cpu where
  regs : Reg → Word
  ZF : Bool
  SF : Bool
  OF : Bool
  stack : List Word

def set_reg (s : Cpu) (r : Reg) (v : Word) : Cpu := { s with regs := fun i => if i = r then v else s.regs i }

/-- The flags after a comparison. -/
def compare (s : Cpu) (a b : Word) : Cpu :=
  { s with ZF := a - b = 0, SF := (a - b).msb, OF := a.msb ≠ b.msb && (a - b).msb ≠ a.msb }

def holds (s : Cpu) : Cond → Bool
  | .e => s.ZF
  | .ne => !s.ZF
  | .l => s.SF ≠ s.OF
  | .le => s.ZF || s.SF ≠ s.OF

/-- `edx:eax` is divided, rounding to zero. There is a trap when the quotient does not fit, or for the divisor 0. -/
def divide (s : Cpu) (d : Word) : Option Cpu :=
  let dividend := (s.regs .edx ++ s.regs .eax).toInt
  if d = 0 then none
  else if - 2 ^ 31 ≤ dividend.tdiv d.toInt ∧ dividend.tdiv d.toInt < 2 ^ 31 then
    some (set_reg (set_reg s .eax (.ofInt 32 (dividend.tdiv d.toInt))) .edx (.ofInt 32 (dividend.tmod d.toInt)))
  else none

/-- An instruction that does not jump. `none` is a trap, or an empty stack. -/
def exec (s : Cpu) : Instr Label → Option Cpu
  | .push_imm v => some { s with stack := v :: s.stack }
  | .push r => some { s with stack := s.regs r :: s.stack }
  | .pop r =>
    match s.stack with
    | [] => none
    | v :: rest => some { set_reg s r v with stack := rest }
  | .drop =>
    match s.stack with
    | [] => none
    | _ :: rest => some { s with stack := rest }
  | .mov dst src => some (set_reg s dst (s.regs src))
  | .mov_imm dst v => some (set_reg s dst v)
  | .add dst src => some (set_reg s dst (s.regs dst + s.regs src))
  | .sub dst src => some (set_reg s dst (s.regs dst - s.regs src))
  | .imul dst src => some (set_reg s dst (s.regs dst * s.regs src))
  | .and dst src => some (set_reg s dst (s.regs dst &&& s.regs src))
  | .and_imm dst v => some (set_reg s dst (s.regs dst &&& v))
  | .or dst src => some (set_reg s dst (s.regs dst ||| s.regs src))
  | .xor dst src => some (set_reg s dst (s.regs dst ^^^ s.regs src))
  | .not dst => some (set_reg s dst (~~~ s.regs dst))
  | .idiv src => divide s (s.regs src)
  | .shl_cl dst => some (set_reg s dst (s.regs dst <<< ((s.regs .ecx).toNat % 32)))
  | .sar_cl dst => some (set_reg s dst ((s.regs dst).sshiftRight ((s.regs .ecx).toNat % 32)))
  | .cmp a b => some (compare s (s.regs a) (s.regs b))
  | .cmp_imm a v => some (compare s (s.regs a) v)
  | .set_al c => some (set_reg s .eax (s.regs .eax &&& 0xFFFFFF00 ||| if holds s c then 1 else 0))
  | .jcc _ _ | .jmp _ | .label _ => some s

abbrev Program (Label : Type) := List (Instr Label)

/-- The code behind a label. -/
def find_label [DecidableEq Label] : Program Label → Label → Option (Program Label)
  | [],_ => none
  | .label here :: rest,l => if here = l then some rest else find_label rest l
  | _ :: rest,l => find_label rest l

abbrev Config (Label : Type) := Cpu × Program Label

variable [DecidableEq Label]

def step (prog : Program Label) : Config Label → Option (Config Label)
  | (_,[]) => none
  | (s,.jcc c target :: rest) => if holds s c then (find_label prog target).map (s,·) else some (s,rest)
  | (s,.jmp target :: _) => (find_label prog target).map (s,·)
  | (s,i :: rest) => (exec s i).map (·,rest)

def Steps (prog : Program Label) : Config Label → Config Label → Prop := Relation.ReflTransGen fun a b => step prog a = some b

/-- The machine is stopped in the middle of the code. -/
def Trapped (prog : Program Label) (c : Config Label) : Prop := step prog c = none ∧ c.2 ≠ []

/-- The label that stands at an instruction. -/
def label_of : Instr Label → Option Label
  | .label here => some here
  | _ => none

def labels (code : Program Label) : List Label := code.filterMap label_of

omit [DecidableEq Label] in
@[simp] theorem labels_nil : labels ([] : Program Label) = [] := rfl

omit [DecidableEq Label] in
@[simp] theorem labels_cons (i : Instr Label) (rest : Program Label) : labels (i :: rest) = (label_of i).toList ++ labels rest := by
  rw [labels,List.filterMap_cons]
  cases label_of i <;> rfl

omit [DecidableEq Label] in
@[simp] theorem labels_append (a b : Program Label) : labels (a ++ b) = labels a ++ labels b := List.filterMap_append

/-- Without two labels of one name a jump comes to the place where the label stands. -/
theorem find_label_suffix {prog rest : Program Label} {l : Label} (unique : (labels prog).Nodup)
    (placed : .label l :: rest <:+ prog) : find_label prog l = some rest := by
  obtain ⟨before,whole⟩ := placed
  subst whole
  induction before with
  | nil => exact if_pos rfl
  | cons i before ih =>
    have later : (labels (before ++ .label l :: rest)).Nodup := by
      rw [labels,List.cons_append,List.filterMap_cons] at unique
      split at unique
      · exact unique
      · exact (List.nodup_cons.1 unique).2
    cases i with
    | label here =>
      have other : here ≠ l := by
        rintro rfl
        have twice := (List.nodup_cons.1 unique).1
        simp [label_of] at twice
      exact (if_neg other).trans (ih later)
    | _ => exact ih later

theorem steps_one {prog : Program Label} {a b : Config Label} (one : step prog a = some b) : Steps prog a b :=
  .single one

/-- Two runs that come to a stop come to the same one. -/
theorem steps_unique {prog : Program Label} {a b c : Config Label} (first : Steps prog a b) (stop : step prog b = none)
    (second : Steps prog a c) (stop' : step prog c = none) : b = c := by
  induction first using Relation.ReflTransGen.head_induction_on with
  | refl =>
    rcases Relation.ReflTransGen.cases_head second with same | ⟨d,moved,_⟩
    · exact same
    · rw [stop] at moved
      cases moved
  | head moved _ ih =>
    rcases Relation.ReflTransGen.cases_head second with same | ⟨d,moved',later⟩
    · rw [← same,moved] at stop'
      cases stop'
    · rw [moved,Option.some.injEq] at moved'
      exact ih (moved' ▸ later)

/-- No jumps. -/
def straight : Instr Label → Bool
  | .jcc _ _ | .jmp _ => false
  | _ => true

def exec_all (s : Cpu) : Program Label → Option Cpu
  | [] => some s
  | i :: rest => (exec s i).bind (exec_all · rest)

theorem step_straight (prog : Program Label) (s : Cpu) {i : Instr Label} (no_jump : straight i = true) (rest : Program Label) :
    step prog (s,i :: rest) = (exec s i).map (·,rest) := by
  cases i <;> first | rfl | cases no_jump

/-- Code without jumps runs from its begin to its end, unless there is a trap. -/
theorem straight_runs (prog : Program Label) {code : Program Label} (no_jumps : ∀ i ∈ code, straight i = true) (s : Cpu)
    (rest : Program Label) :
    (∀ t, exec_all s code = some t → Steps prog (s,code ++ rest) (t,rest)) ∧
      (exec_all s code = none → ∃ c, Steps prog (s,code ++ rest) c ∧ Trapped prog c) := by
  induction code generalizing s with
  | nil => exact ⟨fun t done => by cases done; exact .refl,fun none => by cases none⟩
  | cons i code ih =>
    have one := step_straight prog s (no_jumps i List.mem_cons_self) (code ++ rest)
    rw [exec_all]
    cases now : exec s i with
    | none =>
      rw [now] at one
      exact ⟨fun t done => (by cases done),fun _ => ⟨_,.refl,one,by simp⟩⟩
    | some u =>
      rw [now] at one
      obtain ⟨runs,traps⟩ := ih (fun i member => no_jumps i (List.mem_cons_of_mem _ member)) u
      refine ⟨fun t done => .head one (runs t done),fun none => ?_⟩
      obtain ⟨c,later,trapped⟩ := traps none
      exact ⟨c,.head one later,trapped⟩

/-- What a condition says of two signed numbers. -/
def ordered (a b : Word) : Cond → Bool
  | .e => a = b
  | .ne => a ≠ b
  | .l => a.toInt < b.toInt
  | .le => a.toInt ≤ b.toInt

/-- After a comparison the conditions hold that are true of the two values. -/
theorem holds_compare (s : Cpu) (a b : Word) (c : Cond) : holds (compare s a b) c = ordered a b c := by
  have equal : a - b = 0 ↔ a = b := by
    rw [BitVec.sub_eq_iff_eq_add]
    simp
  have less : ((a - b).msb ≠ (decide (a.msb ≠ b.msb) && decide ((a - b).msb ≠ a.msb))) ↔ a.toInt < b.toInt := by
    have small := a.isLt
    have small' := b.isLt
    have value : (a - b).toNat = (2 ^ 32 - b.toNat + a.toNat) % 2 ^ 32 := BitVec.toNat_sub a b
    rw [BitVec.toInt_eq_toNat_cond,BitVec.toInt_eq_toNat_cond,BitVec.msb_eq_decide,BitVec.msb_eq_decide,BitVec.msb_eq_decide]
    by_cases high : 2 ^ (32 - 1) ≤ a.toNat <;> by_cases high' : 2 ^ (32 - 1) ≤ b.toNat <;>
      by_cases high'' : 2 ^ (32 - 1) ≤ (a - b).toNat <;> simp only [high,high',high''] <;> simp <;> omega
  rw [Bool.eq_iff_iff]
  cases c with
  | e => simpa [holds,compare,ordered] using equal
  | ne => simpa [holds,compare,ordered] using not_congr equal
  | l => simpa [holds,compare,ordered] using less
  | le =>
    have order : a.toInt ≤ b.toInt ↔ a - b = 0 ∨ a.toInt < b.toInt := by
      rw [equal,← BitVec.toInt_inj,le_iff_lt_or_eq,or_comm]
    rw [ordered,decide_eq_true_iff,order,← less]
    simp [holds,compare]

end MicroOS.X86
