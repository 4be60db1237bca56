import Mathlib.Tactic

/-!
Byte-addressed memory with 32-bit little-endian words: loads, stores, block
copies, and which bytes each of them leaves alone.
-/
namespace MicroOS.Memory

/-- A byte at every address. -/
abbrev Bytes := Nat → UInt8

/-- Arithmetic of 32-bit unsigned machine words. -/
def wrap (n : Nat) : Nat := n % 2 ^ 32

theorem wrap_of_lt {n : Nat} (fits : n < 2 ^ 32) : wrap n = n := Nat.mod_eq_of_lt fits
theorem wrap_lt (n : Nat) : wrap n < 2 ^ 32 := Nat.mod_lt _ (by decide)

def storeByte (m : Bytes) (a : Nat) (b : UInt8) : Bytes := fun x => if x = a then b else m x

/-- The little-endian word of the four bytes from `a`. -/
def load32 (m : Bytes) (a : Nat) : Nat :=
  (m a).toNat + 2 ^ 8 * (m (a+1)).toNat + 2 ^ 16 * (m (a+2)).toNat + 2 ^ 24 * (m (a+3)).toNat

def store32 (m : Bytes) (a v : Nat) : Bytes := fun x =>
  if a ≤ x ∧ x < a + 4 then UInt8.ofNat (v / 2 ^ (8 * (x - a))) else m x

/-- The `n` bytes from `a`, in order. -/
def slice (m : Bytes) (a n : Nat) : List UInt8 := (List.range n).map (fun i => m (a + i))

def storeBytes (m : Bytes) (a : Nat) (bs : List UInt8) : Bytes := fun x =>
  if a ≤ x then (bs[x - a]?).getD (m x) else m x

/-- Copies `n` bytes between ranges that do not overlap. -/
def memcpy (m : Bytes) (dst src n : Nat) : Bytes := storeBytes m dst (slice m src n)

/-- Both memories hold the same bytes from `lo` up to `hi`. -/
def Agree (m m' : Bytes) (lo hi : Nat) : Prop := ∀ x, lo ≤ x → x < hi → m' x = m x

theorem agree_refl (m : Bytes) (lo hi : Nat) : Agree m m lo hi := fun _ _ _ => rfl

theorem agree_trans {m m' m'' : Bytes} {lo hi : Nat} (first : Agree m m' lo hi) (second : Agree m' m'' lo hi) :
    Agree m m'' lo hi :=
  fun x low high => (second x low high).trans (first x low high)

theorem agree_mono {m m' : Bytes} {lo hi lo' hi' : Nat} (same : Agree m m' lo hi) (low : lo ≤ lo') (high : hi' ≤ hi) :
    Agree m m' lo' hi' :=
  fun x l h => same x (by omega) (by omega)

theorem load32_agree {m m' : Bytes} {a : Nat} (same : Agree m m' a (a+4)) : load32 m' a = load32 m a := by
  simp only [load32]
  rw [same a (by omega) (by omega),same (a+1) (by omega) (by omega),same (a+2) (by omega) (by omega),
    same (a+3) (by omega) (by omega)]

section
variable (m : Bytes)

theorem load32_store32 (a : Nat) {v : Nat} (fits : v < 2 ^ 32) : load32 (store32 m a v) a = v := by
  have e1 : a + 1 - a = 1 := by omega
  have e2 : a + 2 - a = 2 := by omega
  have e3 : a + 3 - a = 3 := by omega
  simp [load32,store32,e1,e2,e3]
  omega

theorem store32_outside (a v : Nat) {x : Nat} (outside : x < a ∨ a + 4 ≤ x) : store32 m a v x = m x := by
  have : ¬ (a ≤ x ∧ x < a + 4) := by omega
  simp [store32,this]

theorem store32_agree (a v : Nat) {lo hi : Nat} (apart : hi ≤ a ∨ a + 4 ≤ lo) : Agree m (store32 m a v) lo hi :=
  fun x low high => store32_outside m a v (by omega)

theorem load32_store32_apart {a b : Nat} (v : Nat) (apart : b + 4 ≤ a ∨ a + 4 ≤ b) :
    load32 (store32 m a v) b = load32 m b :=
  load32_agree (store32_agree m a v apart)

theorem load32_storeByte_apart {a b : Nat} (v : UInt8) (apart : b + 4 ≤ a ∨ a < b) :
    load32 (storeByte m a v) b = load32 m b :=
  load32_agree (fun x low high => by simp only [storeByte]; rw [if_neg (by omega)])

theorem storeByte_same (a : Nat) (b : UInt8) : storeByte m a b a = b := by simp [storeByte]

theorem storeByte_outside (a : Nat) (b : UInt8) {x : Nat} (other : x ≠ a) : storeByte m a b x = m x := by
  simp [storeByte,other]

theorem storeByte_agree (a : Nat) (b : UInt8) {lo hi : Nat} (apart : hi ≤ a ∨ a < lo) :
    Agree m (storeByte m a b) lo hi :=
  fun x low high => storeByte_outside m a b (by omega)

@[simp] theorem slice_length (a n : Nat) : (slice m a n).length = n := by simp [slice]

theorem slice_getElem? (a n i : Nat) : (slice m a n)[i]? = if i < n then some (m (a + i)) else none := by
  by_cases inside : i < n
  · simp [slice,inside]
  · simp [slice,inside]

end

theorem slice_agree {m m' : Bytes} {a n : Nat} (same : Agree m m' a (a+n)) : slice m' a n = slice m a n := by
  apply List.map_congr_left
  intro i member
  have inside : i < n := List.mem_range.mp member
  exact same (a+i) (by omega) (by omega)

theorem slice_append (m : Bytes) (a n k : Nat) : slice m a (n+k) = slice m a n ++ slice m (a+n) k := by
  simp [slice,List.range_add,List.map_append,Nat.add_assoc]

theorem slice_drop (m : Bytes) (a n k : Nat) : (slice m a n).drop k = slice m (a+k) (n-k) := by
  apply List.ext_getElem?
  intro i
  rw [List.getElem?_drop,slice_getElem?,slice_getElem?,Nat.add_assoc]
  by_cases inside : k + i < n
  · rw [if_pos inside,if_pos (by omega)]
  · rw [if_neg inside,if_neg (by omega)]

theorem storeBytes_outside (m : Bytes) (a : Nat) (bs : List UInt8) {x : Nat} (outside : x < a ∨ a + bs.length ≤ x) :
    storeBytes m a bs x = m x := by
  by_cases low : a ≤ x
  · have past : bs[x - a]? = none := List.getElem?_eq_none (by omega)
    simp [storeBytes,past]
  · simp [storeBytes,low]

theorem storeBytes_agree (m : Bytes) (a : Nat) (bs : List UInt8) {lo hi : Nat}
    (apart : hi ≤ a ∨ a + bs.length ≤ lo) : Agree m (storeBytes m a bs) lo hi :=
  fun x low high => storeBytes_outside m a bs (by omega)

/-- A store reads back as what was stored. -/
theorem slice_storeBytes (m : Bytes) (a : Nat) (bs : List UInt8) : slice (storeBytes m a bs) a bs.length = bs := by
  apply List.ext_getElem?
  intro i
  rw [slice_getElem?]
  by_cases inside : i < bs.length
  · have offset : a + i - a = i := by omega
    simp [inside,storeBytes,offset]
  · rw [if_neg inside,List.getElem?_eq_none (by omega)]

theorem slice_memcpy (m : Bytes) (dst src n : Nat) : slice (memcpy m dst src n) dst n = slice m src n := by
  have stored := slice_storeBytes m dst (slice m src n)
  rwa [slice_length] at stored

theorem memcpy_agree (m : Bytes) (dst src n : Nat) {lo hi : Nat} (apart : hi ≤ dst ∨ dst + n ≤ lo) :
    Agree m (memcpy m dst src n) lo hi :=
  storeBytes_agree m dst (slice m src n) (by simpa using apart)

end MicroOS.Memory
