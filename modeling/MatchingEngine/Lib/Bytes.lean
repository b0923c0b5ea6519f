import Mathlib.Data.Nat.Digits.Lemmas

/-!
# Little-endian numbers and buffers

`leValue` is the number little-endian bytes spell, `leBytes w v` the `w` bytes that
spell `v`. A record is written into a buffer field by field from the front:
`Filled buf bytes` says that `buf` begins with `bytes`, and one more field written right
behind them extends them (`Filled.write`), whatever the buffer held there before.

* `leValue_leBytes`, `leBytes_leValue`: the two are inverse.
* `eq_fieldBytes_iff`: a record is determined by the fields it holds.
-/

/-- The number `bs` spells, least significant byte first. -/
def leValue (bs : List UInt8) : ℕ := Nat.ofDigits 256 (bs.map UInt8.toNat)

theorem leValue_lt (bs : List UInt8) : leValue bs < 256 ^ bs.length := by
  have hdigits : ∀ d ∈ bs.map UInt8.toNat, d < 256 := by
    intro d hd
    obtain ⟨b, -, rfl⟩ := List.mem_map.1 hd
    exact b.toNat_lt
  have hlt := Nat.ofDigits_lt_base_pow_length (by decide) hdigits
  rwa [List.length_map] at hlt

theorem leValue_cons (b : UInt8) (bs : List UInt8) : leValue (b :: bs) = b.toNat + 256 * leValue bs := by
  unfold leValue
  rw [List.map_cons, Nat.ofDigits_cons]

/-- The `w` low bytes of `v`, least significant first. -/
def leBytes : ℕ → ℕ → List UInt8
  | 0, _ => []
  | w + 1, v => UInt8.ofNat v :: leBytes w (v / 256)

@[simp] theorem leBytes_length (w v : ℕ) : (leBytes w v).length = w := by
  induction w generalizing v with
  | zero => rfl
  | succ w ih => rw [leBytes, List.length_cons, ih]

/-- A number that fits is read back. -/
theorem leValue_leBytes {w v : ℕ} (h : v < 256 ^ w) : leValue (leBytes w v) = v := by
  induction w generalizing v with
  | zero =>
    have hv : v = 0 := by simpa using h
    rw [hv]
    rfl
  | succ w ih =>
    have hdiv : v / 256 < 256 ^ w := by
      rw [Nat.pow_succ] at h
      exact Nat.div_lt_of_lt_mul (by rwa [Nat.mul_comm] at h)
    rw [leBytes, leValue_cons, ih hdiv, UInt8.toNat_ofNat']
    omega

/-- Every byte string is the number it spells. -/
theorem leBytes_leValue (bs : List UInt8) : leBytes bs.length (leValue bs) = bs := by
  induction bs with
  | nil => rfl
  | cons b bs ih =>
    have hb := b.toNat_lt
    have hdiv : (b.toNat + 256 * leValue bs) / 256 = leValue bs := by omega
    have hmod : UInt8.ofNat (b.toNat + 256 * leValue bs) = b := by
      apply UInt8.toNat.inj
      rw [UInt8.toNat_ofNat']
      omega
    rw [List.length_cons, leBytes, leValue_cons, hdiv, ih, hmod]

/-- `buf[offset..offset + bytes.len()]` replaced by `bytes`. -/
def splice (buf : List UInt8) (offset : ℕ) (bytes : List UInt8) : List UInt8 :=
  buf.take offset ++ bytes ++ buf.drop (offset + bytes.length)

theorem splice_length {buf bytes : List UInt8} {offset : ℕ} (h : offset + bytes.length ≤ buf.length) :
    (splice buf offset bytes).length = buf.length := by
  unfold splice
  rw [List.length_append, List.length_append, List.length_take, List.length_drop]
  omega

/-- The buffer begins with `bytes`. -/
def Filled (buf bytes : List UInt8) : Prop := buf.take bytes.length = bytes

/-- **A field written right behind what is filled.** -/
theorem Filled.write {buf bytes : List UInt8} (h : Filled buf bytes) (field : List UInt8) :
    Filled (splice buf bytes.length field) (bytes ++ field) := by
  unfold Filled splice at *
  rw [h, List.take_left]

/-- Fields one behind the other, the first at `offset`. -/
def Contiguous : ℕ → List (ℕ × List UInt8) → Prop
  | _, [] => True
  | offset, (o, bytes) :: fields => o = offset ∧ Contiguous (offset + bytes.length) fields

/-- The bytes of fields one behind the other. -/
def fieldBytes (fields : List (ℕ × List UInt8)) : List UInt8 := (fields.map Prod.snd).flatten

theorem fieldBytes_cons (o : ℕ) (bytes : List UInt8) (fields : List (ℕ × List UInt8)) :
    fieldBytes ((o, bytes) :: fields) = bytes ++ fieldBytes fields := by
  unfold fieldBytes
  rw [List.map_cons, List.flatten_cons]

/-- `bytes` stand in `f` at `offset`. -/
def Holds (f : List UInt8) (offset : ℕ) (bytes : List UInt8) : Prop :=
  (f.drop offset).take bytes.length = bytes

theorem Holds.drop_eq {f bytes : List UInt8} {offset : ℕ} (h : Holds f offset bytes) :
    f.drop offset = bytes ++ f.drop (offset + bytes.length) := by
  have hsplit := List.take_append_drop bytes.length (f.drop offset)
  rw [h, List.drop_drop] at hsplit
  exact hsplit.symm

/-- A string holds the fields of a record behind a prefix if it is that record behind it. -/
theorem drop_eq_fieldBytes_iff {f : List UInt8} {offset : ℕ} {fields : List (ℕ × List UInt8)}
    (hc : Contiguous offset fields) (hlen : f.length = offset + (fieldBytes fields).length) :
    f.drop offset = fieldBytes fields ↔ ∀ field ∈ fields, Holds f field.1 field.2 := by
  induction fields generalizing offset with
  | nil =>
    have hnil : f.drop offset = [] := List.drop_eq_nil_of_le (by simpa [fieldBytes] using Nat.le_of_eq hlen)
    exact ⟨fun _ _ h => absurd h List.not_mem_nil, fun _ => hnil⟩
  | cons field fields ih =>
    obtain ⟨o, bytes⟩ := field
    obtain ⟨rfl, hc⟩ := hc
    rw [fieldBytes_cons, List.length_append, ← Nat.add_assoc] at hlen
    rw [fieldBytes_cons, List.forall_mem_cons, ← ih hc hlen]
    constructor
    · intro h
      have hhere : Holds f o bytes := by
        unfold Holds
        rw [h, List.take_left]
      refine ⟨hhere, ?_⟩
      rw [← List.drop_drop, h, List.drop_left]
    · rintro ⟨hhere, hrest⟩
      have hdrop : f.drop o = bytes ++ f.drop (o + bytes.length) := Holds.drop_eq hhere
      rw [hdrop, hrest]

/-- **A record of contiguous fields is the string that holds them.** -/
theorem eq_fieldBytes_iff {f : List UInt8} {fields : List (ℕ × List UInt8)} (hc : Contiguous 0 fields)
    (hlen : f.length = (fieldBytes fields).length) :
    f = fieldBytes fields ↔ ∀ field ∈ fields, Holds f field.1 field.2 := by
  rw [← drop_eq_fieldBytes_iff hc (by rw [hlen, Nat.zero_add]), List.drop_zero]

/-- A number stands where it is read. -/
theorem holds_leBytes_iff {f : List UInt8} {offset w v : ℕ} (h : offset + w ≤ f.length) :
    leValue ((f.drop offset).take w) = v ↔ v < 256 ^ w ∧ Holds f offset (leBytes w v) := by
  have hlen : ((f.drop offset).take w).length = w := by
    rw [List.length_take, List.length_drop]
    omega
  unfold Holds
  rw [leBytes_length]
  constructor
  · rintro rfl
    have hlt := leValue_lt ((f.drop offset).take w)
    have hle := leBytes_leValue ((f.drop offset).take w)
    rw [hlen] at hlt hle
    exact ⟨hlt, hle.symm⟩
  · rintro ⟨hv, hf⟩
    rw [hf, leValue_leBytes hv]
