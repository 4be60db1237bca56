import MicroOS.GdbPackets
import MicroOS.Outcomes

/-! What the debugger's packets carry: the encodings, the packets that are received, and the writes to memory. -/

namespace MicroOS.GdbTransfers
open GdbPackets
open Outcomes (ok_bind error_bind)

/-- A byte as the binary format sends it. -/
def escape (c : UInt8) : Bytes := if escaped c = true then [125,c ^^^ 32] else [c]

/-- The bytes that a payload stands for. -/
def decoded : Format → Bytes → Option Bytes
  | .hex,[] => some []
  | .hex,[_] => none
  | .hex,h :: l :: payload => do
    let high ← gdb_get_val h 16
    let low ← gdb_get_val l 16
    let data ← decoded .hex payload
    pure ((UInt8.ofNat (high <<< 4) ||| UInt8.ofNat low) :: data)
  | .bin,[] => some []
  | .bin,c :: payload =>
    if c = 125 then
      match payload with
      | [] => none
      | d :: payload => (decoded .bin payload).map fun data => (d ^^^ 32) :: data
    else (decoded .bin payload).map fun data => c :: data

/-- A packet on the line: nothing of it begins or ends a packet by itself, and the checksum is its own. -/
structure Sent (noise payload : Bytes) (h l : UInt8) : Prop where
  no_start : 36 ∉ noise
  no_end : 35 ∉ payload
  fits : payload.length ≤ 256
  checksum : decoded .hex [h,l] = some [gdb_checksum payload]

section
variable (dec : Format) (stale : Nat → UInt8) (m : Memory) (pkt_buf : Bytes) (pkt_len : Nat)

def payload (r : Request) : Bytes := r.ptr_next.take (token_remaining_buf pkt_buf pkt_len r.ptr_next).toNat

/-- An error is reported, or the bytes are written that the payload stands for, as many as announced. -/
def Right : Prop :=
  write_packet dec stale m pkt_buf pkt_len = .error .eof ∨
    ∃ r data, arguments pkt_buf pkt_len = .ok r ∧ decoded dec (payload pkt_buf pkt_len r) = some data ∧ data.length = r.length.toNat ∧
      write_packet dec stale m pkt_buf pkt_len = .ok (write_bytes m r.addr data)

/-- A payload of the announced length has hexadecimal digits only; a binary one stands for as many bytes as announced. -/
def Carries (r : Request) : Prop :=
  match dec with
  | .hex => token_remaining_buf pkt_buf pkt_len r.ptr_next = r.length.toNat * 2 → ∀ c ∈ payload pkt_buf pkt_len r, (gdb_get_val c 16).isSome
  | .bin => ∃ data, decoded .bin (payload pkt_buf pkt_len r) = some data ∧ data.length = r.length.toNat

/-- The arguments are read within the buffer, and the payload is as long as it is announced or too long to be written. -/
def Clear : Prop :=
  arguments pkt_buf pkt_len = .error .eof ∨
    ∃ r, arguments pkt_buf pkt_len = .ok r ∧ (r.length.toNat ≤ 64 → Carries dec pkt_buf pkt_len r)

end

theorem digit_value {n : Nat} (small : n < 16) : gdb_get_val (digits.getD n 255) 16 = some n := by
  have all : ∀ n < 16, gdb_get_val (digits.getD n 255) 16 = some n := by decide
  exact all n small

theorem halves (c : UInt8) : UInt8.ofNat (((c >>> 4) &&& 15).toNat <<< 4) ||| UInt8.ofNat (c &&& 15).toNat = c := by
  have all : ∀ n < 256, UInt8.ofNat (((UInt8.ofNat n >>> 4) &&& 15).toNat <<< 4) ||| UInt8.ofNat (UInt8.ofNat n &&& 15).toNat =
      UInt8.ofNat n := by decide +kernel
  simpa only [UInt8.ofNat_toNat] using all c.toNat c.toNat_lt

theorem half_small (c : UInt8) : (c &&& 15).toNat < 16 := by
  rw [UInt8.toNat_and]
  exact Nat.lt_succ_of_le Nat.and_le_right

theorem enc_hex_decoded (data : Bytes) : decoded .hex (enc_hex_loop data) = some data := by
  induction data with
  | nil => rfl
  | cons c data ih =>
    rw [enc_hex_loop,decoded,gdb_get_digit,gdb_get_digit,digit_value (half_small _),digit_value (half_small _),ih]
    simp only [Option.bind_eq_bind,Option.bind_some,halves]
    rfl

theorem enc_hex_length (data : Bytes) : (enc_hex_loop data).length = data.length * 2 := by
  induction data with
  | nil => rfl
  | cons c data ih =>
    rw [enc_hex_loop,List.length_cons,List.length_cons,ih,List.length_cons]
    omega

/-- Two digits make a byte, and every character must be one. -/
theorem decoded_hex {n : Nat} {buf : Bytes} (length : buf.length = n * 2) :
    (∃ data, decoded .hex buf = some data ∧ data.length = n) ↔ ∀ c ∈ buf, (gdb_get_val c 16).isSome := by
  induction n generalizing buf with
  | zero =>
    obtain rfl := List.eq_nil_of_length_eq_zero (length.trans (Nat.zero_mul 2))
    simp [decoded]
  | succ n ih =>
    rcases buf with _ | ⟨h,_ | ⟨l,buf⟩⟩
    · simp at length
    · simp at length
      omega
    · have rest : buf.length = n * 2 := by
        simp only [List.length_cons] at length
        omega
      simp only [List.forall_mem_cons,← ih rest,decoded]
      cases gdb_get_val h 16 with
      | none => simp
      | some a =>
        cases gdb_get_val l 16 with
        | none => simp
        | some b => cases decoded .hex buf <;> simp

theorem decoded_hex_length {n : Nat} {buf data : Bytes} (length : buf.length = n * 2) (same : decoded .hex buf = some data) :
    data.length = n := by
  induction n generalizing buf data with
  | zero =>
    obtain rfl := List.eq_nil_of_length_eq_zero (length.trans (Nat.zero_mul 2))
    obtain rfl := Option.some.inj same
    rfl
  | succ n ih =>
    rcases buf with _ | ⟨h,_ | ⟨l,buf⟩⟩
    · simp at length
    · cases same
    · simp only [decoded,Option.bind_eq_bind,Option.bind_eq_some_iff] at same
      obtain ⟨_,_,_,_,rest,found,made⟩ := same
      obtain rfl := Option.some.inj made
      rw [List.length_cons,ih (by simp only [List.length_cons] at length; omega) found]

/-- The loop decodes what is there, and fails at a character that is no digit. -/
theorem dec_hex_loop_eq {n : Nat} {buf : Bytes} (enough : n * 2 ≤ buf.length) :
    dec_hex_loop n buf = match decoded .hex (buf.take (n * 2)) with
      | some data => .ok data
      | none => .error .panics := by
  induction n generalizing buf with
  | zero => simp [dec_hex_loop,decoded]
  | succ n ih =>
    rcases buf with _ | ⟨h,_ | ⟨l,buf⟩⟩
    · simp at enough
    · simp at enough
      omega
    have rest : n * 2 ≤ buf.length := by
      simp only [List.length_cons] at enough
      omega
    have two : (h :: l :: buf).take ((n + 1) * 2) = h :: l :: buf.take (n * 2) := by
      rw [Nat.succ_mul]
      rfl
    rw [two,decoded,dec_hex_loop]
    cases gdb_get_val h 16 with
    | none => rfl
    | some a =>
      dsimp only
      cases gdb_get_val l 16 with
      | none => rfl
      | some b =>
        dsimp only
        rw [ih rest]
        cases decoded .hex (buf.take (n * 2)) <;> rfl

theorem hex_agrees {data : Bytes} {buf_len : Nat} (room : data.length * 2 ≤ buf_len) :
    ∃ buf, gdb_enc_hex buf_len data = .ok buf ∧ gdb_dec_hex buf buf.length data.length = .ok data := by
  refine ⟨enc_hex_loop data,if_neg (Nat.not_lt.mpr room),?_⟩
  have length := enc_hex_length data
  rw [gdb_dec_hex,if_neg (by rw [length]; simp),dec_hex_loop_eq length.ge,← length,List.take_length,enc_hex_decoded]

theorem enc_bin_eq {buf_len : Nat} {data : Bytes} {buf_pos : Nat} (room : buf_pos + (data.flatMap escape).length ≤ buf_len) :
    enc_bin_loop buf_len data buf_pos = .ok (data.flatMap escape) := by
  induction data generalizing buf_pos with
  | nil => rfl
  | cons c data ih =>
    rw [List.flatMap_cons,List.length_append] at room
    rw [enc_bin_loop,List.flatMap_cons]
    by_cases special : escaped c = true
    · simp only [escape,special,if_true,List.length_cons,List.length_nil] at room
      rw [if_pos special,if_neg (by omega),ih (by omega),escape,if_pos special]
      rfl
    · simp only [escape,special,if_false,Bool.false_eq_true,List.length_cons,List.length_nil] at room
      rw [if_neg special,if_neg (by omega),ih (by omega),escape,if_neg special]
      rfl

theorem decoded_plain {c : UInt8} (plain : c ≠ 125) (buf : Bytes) : decoded .bin (c :: buf) = (decoded .bin buf).map fun data => c :: data := by
  cases buf <;> simp [decoded,plain]

theorem decoded_mark (d : UInt8) (buf : Bytes) :
    decoded .bin (125 :: d :: buf) = (decoded .bin buf).map fun data => (d ^^^ 32) :: data := by
  simp [decoded]

theorem escape_decoded (data : Bytes) : decoded .bin (data.flatMap escape) = some data := by
  induction data with
  | nil => rfl
  | cons c data ih =>
    rw [List.flatMap_cons,escape]
    by_cases special : escaped c = true
    · rw [if_pos special]
      simp only [List.cons_append,List.nil_append,decoded,if_true,ih,Option.map_some]
      rw [UInt8.xor_assoc]
      simp
    · have plain : c ≠ 125 := fun same => special (by rw [same]; decide)
      rw [if_neg special]
      rw [List.singleton_append,decoded_plain plain,ih]
      rfl

/-- The loop decodes what fits, and fails at a mark with nothing behind it. -/
theorem dec_bin_loop_eq (data_len : Nat) (buf : Bytes) (data_pos : Nat) (room : data_pos ≤ data_len) :
    dec_bin_loop data_len buf data_pos = match decoded .bin buf with
      | some data => if data_pos + data.length ≤ data_len then .ok data else .error .panics
      | none => .error .panics := by
  induction size : buf.length using Nat.strong_induction_on generalizing buf data_pos with
  | _ n ih =>
    cases buf with
    | nil => simp [dec_bin_loop,decoded,room]
    | cons c buf =>
      -- one byte of the result, and the rest of the payload
      have turn (rest : Bytes) (b : UInt8) (fewer : rest.length < n) (more : data_pos < data_len) :
          (do let data ← dec_bin_loop data_len rest (data_pos + 1); pure (b :: data) : Except Stop Bytes) =
            match @Option.map Bytes Bytes (fun data => b :: data) (decoded .bin rest) with
            | some data => if data_pos + data.length ≤ data_len then .ok data else .error .panics
            | none => .error .panics := by
        rw [ih rest.length fewer rest (data_pos + 1) more rfl]
        cases decoded .bin rest with
        | none => rfl
        | some data =>
          simp only [Option.map_some,List.length_cons]
          have same : data_pos + 1 + data.length ≤ data_len ↔ data_pos + (data.length + 1) ≤ data_len := by omega
          by_cases fits : data_pos + 1 + data.length ≤ data_len
          · rw [if_pos fits,if_pos (same.mp fits)]
            rfl
          · rw [if_neg fits,if_neg fun all => fits (same.mpr all)]
            rfl
      have full (rest : Bytes) (b : UInt8) (last : data_pos ≥ data_len) :
          (match @Option.map Bytes Bytes (fun data => b :: data) (decoded .bin rest) with
          | some data => if data_pos + data.length ≤ data_len then (.ok data : Except Stop Bytes) else .error .panics
          | none => .error .panics) = .error .panics := by
        cases decoded .bin rest with
        | none => rfl
        | some data => exact if_neg (by simp only [List.length_cons]; omega)
      rw [List.length_cons] at size
      by_cases mark : c = 125
      · cases buf with
        | nil => simp [dec_bin_loop,decoded,mark]
        | cons d rest =>
          rw [List.length_cons] at size
          rw [mark,decoded_mark,dec_bin_loop]
          by_cases last : data_pos ≥ data_len
          · rw [if_pos last]
            exact (full rest _ last).symm
          · rw [if_neg last,if_pos rfl]
            exact turn rest _ (by omega) (by omega)
      · rw [decoded_plain mark,dec_bin_loop.eq_def]
        dsimp only
        by_cases last : data_pos ≥ data_len
        · rw [if_pos last]
          exact (full buf _ last).symm
        · rw [if_neg last,if_neg mark]
          exact turn buf _ (by omega) (by omega)

theorem bin_agrees {data : Bytes} {buf_len data_len : Nat} (room : (data.flatMap escape).length ≤ buf_len)
    (enough : data.length ≤ data_len) : ∃ buf, gdb_enc_bin buf_len data = .ok buf ∧ gdb_dec_bin buf buf.length data_len = .ok data := by
  refine ⟨data.flatMap escape,enc_bin_eq (by omega),?_⟩
  rw [gdb_dec_bin,if_pos le_rfl,Int.toNat_natCast,List.take_length,dec_bin_loop_eq _ _ _ (Nat.zero_le _),escape_decoded]
  exact if_pos (by omega)

theorem char_eq (c d : UInt8) : c.toInt8.toInt = d.toInt8.toInt ↔ c = d := by
  refine ⟨fun same => ?_,fun same => by rw [same]⟩
  have word : c.toInt8 = d.toInt8 := Int8.toInt_inj.mp same
  exact congrArg Int8.toUInt8 word

theorem eof_iff (c : UInt8) : c.toInt8.toInt = GDB_EOF ↔ c = 255 := char_eq c 255

theorem await_start_eq {noise : Bytes} (no_start : 36 ∉ noise) (input : Bytes) :
    await_start (noise ++ 36 :: input) = if 255 ∈ noise then .error .eof else .ok input := by
  induction noise with
  | nil => rfl
  | cons c noise ih =>
    rw [List.mem_cons,not_or] at no_start
    rw [List.cons_append,await_start]
    simp only [eof_iff,show c.toInt8.toInt = 36 ↔ c = 36 from char_eq c 36,List.mem_cons]
    by_cases last : c = 255
    · simp [last]
    · have other : ¬255 = c := fun same => last same.symm
      rw [if_neg last,if_neg fun same => no_start.1 same.symm,ih no_start.2]
      simp only [other,false_or]

theorem read_body_eq {payload : Bytes} (no_end : 35 ∉ payload) (pkt_buf input : Bytes) {size : Nat}
    (fits : pkt_buf.length + payload.length ≤ size) : read_body size (payload ++ 35 :: input) pkt_buf =
      if 255 ∈ payload then .error .eof else .ok (pkt_buf ++ payload,input) := by
  induction payload generalizing pkt_buf with
  | nil => simp [read_body,GDB_EOF]
  | cons c payload ih =>
    rw [List.mem_cons,not_or] at no_end
    rw [List.length_cons] at fits
    rw [List.cons_append,read_body]
    simp only [eof_iff,show c.toInt8.toInt = 35 ↔ c = 35 from char_eq c 35,List.mem_cons]
    by_cases last : c = 255
    · simp [last]
    · have other : ¬255 = c := fun same => last same.symm
      rw [if_neg last,if_neg fun same => no_end.1 same.symm,if_neg (by omega),
        ih no_end.2 _ (by rw [List.length_append,List.length_singleton]; omega)]
      simp only [other,false_or,List.append_assoc,List.singleton_append]

theorem digit_not_eof {c : UInt8} (digit : (gdb_get_val c 16).isSome) : c ≠ 255 := by
  rintro rfl
  revert digit
  decide

/-- A packet is received exactly when the byte that counts as the end of the input is not in it. -/
theorem recv_iff {noise payload : Bytes} {h l : UInt8} (sent : Sent noise payload h l) (input : Bytes) :
    gdb_recv_packet (noise ++ 36 :: (payload ++ 35 :: h :: l :: input)) 256 = .ok (payload,input) ↔ 255 ∉ noise ∧ 255 ∉ payload := by
  obtain ⟨no_start,no_end,fits,checksum⟩ := sent
  have digits := (@decoded_hex 1 [h,l] rfl).mp ⟨_,checksum,rfl⟩
  have high : ¬h = 255 := digit_not_eof (digits h (by simp))
  have low : ¬l = 255 := digit_not_eof (digits l (by simp))
  have read : gdb_read 2 (h :: l :: input) = .ok ([h,l],input) := by
    simp only [gdb_read,eof_iff,high,low,if_false]
    rfl
  have expected : gdb_dec_hex [h,l] 2 1 = .ok [gdb_checksum payload] := by
    rw [gdb_dec_hex,if_neg (by decide),dec_hex_loop_eq (le_refl 2)]
    simp [checksum]
  rw [gdb_recv_packet,await_start_eq no_start]
  by_cases noisy : 255 ∈ noise
  · rw [if_pos noisy,error_bind]
    refine ⟨fun received => ?_,fun clear => (clear.1 noisy).elim⟩
    cases received
  · rw [if_neg noisy,ok_bind,read_body_eq no_end [] _ (by simpa using fits)]
    by_cases carried : 255 ∈ payload
    · rw [if_pos carried,error_bind]
      refine ⟨fun received => ?_,fun clear => (clear.2 carried).elim⟩
      cases received
    · rw [if_neg carried,ok_bind,List.nil_append]
      dsimp only
      rw [read,ok_bind]
      dsimp only
      rw [expected,ok_bind,if_neg (not_not.mpr rfl)]
      exact iff_of_true rfl ⟨noisy,carried⟩

section
variable {dec : Format} {stale : Nat → UInt8} {m : Memory} {pkt_buf : Bytes} {pkt_len : Nat} {r : Request}

theorem filled {data : Bytes} {n : Nat} (length : data.length = n) : ((List.range n).map fun pos => data.getD pos (stale pos)) = data := by
  apply List.ext_getElem
  · simp [length]
  · intro pos below here
    simp [here]

/-- The payload decoded into at most the announced bytes is written, with whatever there was in the place of the others. -/
theorem write_eq {data : Option Bytes} (args : arguments pkt_buf pkt_len = .ok r) (few : r.length.toNat ≤ 64)
    (read : decode dec r.ptr_next (token_remaining_buf pkt_buf pkt_len r.ptr_next) r.length.toNat = match data with
      | some data => if data.length ≤ r.length.toNat then .ok data else .error .panics
      | none => .error .panics) (same : decoded dec (payload pkt_buf pkt_len r) = data) :
    Right dec stale m pkt_buf pkt_len ↔ ∃ data, decoded dec (payload pkt_buf pkt_len r) = some data ∧ data.length = r.length.toNat := by
  have write : write_packet dec stale m pkt_buf pkt_len =
      gdb_mem_write dec stale m r.ptr_next (token_remaining_buf pkt_buf pkt_len r.ptr_next) r.addr r.length := by
    rw [write_packet,args,ok_bind]
  rw [gdb_mem_write,if_neg (Nat.not_lt.mpr few),read] at write
  constructor
  · rintro (error | ⟨r',data',args',there,length,_⟩)
    · rw [write] at error
      cases data with
      | none => cases error
      | some data =>
        dsimp only at error
        split_ifs at error <;> cases error
    · obtain rfl := Except.ok.inj (args.symm.trans args')
      exact ⟨data',there,length⟩
  · rintro ⟨data',there,length⟩
    obtain rfl := same.symm.trans there
    dsimp only at write
    rw [if_pos length.le,ok_bind,filled length] at write
    exact .inr ⟨r,data',args,there,length,write⟩

/-- An error that is reported is enough. -/
theorem right_eof (reported : write_packet dec stale m pkt_buf pkt_len = .error .eof) : Right dec stale m pkt_buf pkt_len := .inl reported

theorem right_long (args : arguments pkt_buf pkt_len = .ok r) (many : ¬r.length.toNat ≤ 64) : Right dec stale m pkt_buf pkt_len := by
  apply right_eof
  rw [write_packet,args,ok_bind,gdb_mem_write,if_pos (Nat.lt_of_not_le many)]

section
variable (args : arguments pkt_buf pkt_len = .ok r) (few : r.length.toNat ≤ 64) (fits : pkt_len ≤ pkt_buf.length)
include args few fits

theorem right_hex : Right .hex stale m pkt_buf pkt_len ↔ Carries .hex pkt_buf pkt_len r := by
  have bound : token_remaining_buf pkt_buf pkt_len r.ptr_next ≤ r.ptr_next.length := by
    rw [token_remaining_buf]
    omega
  by_cases announced : token_remaining_buf pkt_buf pkt_len r.ptr_next = r.length.toNat * 2
  · have text : payload pkt_buf pkt_len r = r.ptr_next.take (r.length.toNat * 2) := by
      rw [payload,announced]
      rfl
    have length : (payload pkt_buf pkt_len r).length = r.length.toNat * 2 := by
      rw [text,List.length_take]
      omega
    have carries : Carries .hex pkt_buf pkt_len r ↔
        ∃ data, decoded .hex (payload pkt_buf pkt_len r) = some data ∧ data.length = r.length.toNat := by
      rw [decoded_hex length]
      exact ⟨fun all => all announced,fun all _ => all⟩
    rw [carries]
    refine write_eq args few ?_ rfl
    rw [decode,gdb_dec_hex,if_neg (not_not.mpr announced),dec_hex_loop_eq (by omega),← text]
    cases found : decoded .hex (payload pkt_buf pkt_len r) with
    | none => rfl
    | some data => exact (if_pos (decoded_hex_length length found).le).symm
  · refine iff_of_true (right_eof ?_) fun same => (announced same).elim
    rw [write_packet,args,ok_bind,gdb_mem_write,if_neg (Nat.not_lt.mpr few),decode,gdb_dec_hex,if_pos announced]
    rfl

theorem right_bin : Right .bin stale m pkt_buf pkt_len ↔ Carries .bin pkt_buf pkt_len r := by
  have bound : token_remaining_buf pkt_buf pkt_len r.ptr_next ≤ r.ptr_next.length := by
    rw [token_remaining_buf]
    omega
  refine write_eq args few ?_ rfl
  rw [decode,gdb_dec_bin,if_pos bound,dec_bin_loop_eq _ _ _ (Nat.zero_le _)]
  simp only [Nat.zero_add]
  rfl

end

theorem right_iff (fits : pkt_len ≤ pkt_buf.length) : Right dec stale m pkt_buf pkt_len ↔ Clear dec pkt_buf pkt_len := by
  cases args : arguments pkt_buf pkt_len with
  | error e =>
    have write : write_packet dec stale m pkt_buf pkt_len = .error e := by rw [write_packet,args,error_bind]
    rw [Right,Clear,write,args]
    constructor
    · rintro (reported | ⟨_,_,none_read,_⟩)
      · exact .inl (congrArg _ (Except.error.inj reported))
      · cases none_read
    · rintro (reported | ⟨_,none_read,_⟩)
      · exact .inl (congrArg _ (Except.error.inj reported))
      · cases none_read
  | ok r =>
    have clear : Clear dec pkt_buf pkt_len ↔ (r.length.toNat ≤ 64 → Carries dec pkt_buf pkt_len r) := by
      rw [Clear,args]
      constructor
      · rintro (none_read | ⟨r',same,carries⟩)
        · cases none_read
        · obtain rfl := Except.ok.inj same
          exact carries
      · exact fun carries => .inr ⟨r,rfl,carries⟩
    rw [clear]
    by_cases few : r.length.toNat ≤ 64
    · simp only [few,true_implies]
      cases dec with
      | hex => exact right_hex args few fits
      | bin => exact right_bin args few fits
    · exact iff_of_true (right_long args few) fun small => (few small).elim

end

/-- The encodings agree. A packet is received exactly when it has no byte `0xff`, and a write is right exactly when its arguments
are read within the buffer and its payload is what it announces. -/
theorem gdb_transfers (data : Bytes) (buf_len data_len : Nat) (noise text input : Bytes) (h l : UInt8) (dec : Format)
    (stale : Nat → UInt8) (m : Memory) (pkt_buf : Bytes) (pkt_len : Nat) :
    (data.length * 2 ≤ buf_len → ∃ buf, gdb_enc_hex buf_len data = .ok buf ∧ gdb_dec_hex buf buf.length data.length = .ok data) ∧
    ((data.flatMap escape).length ≤ buf_len → data.length ≤ data_len →
      ∃ buf, gdb_enc_bin buf_len data = .ok buf ∧ gdb_dec_bin buf buf.length data_len = .ok data) ∧
    (Sent noise text h l → (gdb_recv_packet (noise ++ 36 :: (text ++ 35 :: h :: l :: input)) 256 = .ok (text,input) ↔
      255 ∉ noise ∧ 255 ∉ text)) ∧
    (pkt_len ≤ pkt_buf.length → (Right dec stale m pkt_buf pkt_len ↔ Clear dec pkt_buf pkt_len)) :=
  ⟨hex_agrees,bin_agrees,fun sent => recv_iff sent input,right_iff⟩

/-- The packet of the single byte `0xff`, with its checksum -/
theorem end_byte_lost : ¬∀ noise text h l input, Sent noise text h l →
    gdb_recv_packet (noise ++ 36 :: (text ++ 35 :: h :: l :: input)) 256 = .ok (text,input) := by
  intro received
  have sent : Sent [] [255] 102 102 := ⟨by decide,by decide,by decide,by decide⟩
  have lost := ((recv_iff sent []).mp (received [] [255] 102 102 [] sent)).2
  exact lost (by decide)

-- `X1000,4:A` writes the byte and three of the stack
example : (write_packet .bin (fun _ => 7) (fun _ => 0) [88,49,48,48,48,44,52,58,65] 9).toOption.map
    (fun m => (m 0x1000,m 0x1001,m 0x1003,m 0x1004)) = some (65,7,7,0) := by decide

end MicroOS.GdbTransfers
