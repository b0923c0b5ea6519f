import MatchingEngine.Risk.Model
import Mathlib.Data.List.TakeWhile

/-!
# The limits file

`risk::config`: `RiskConfig::load` reads `key = value` lines, `#` starts a comment, `_` may
separate digits. A missing file, a missing key or a value that does not parse leaves the
default. Whatever parses is taken: no value is checked against what the gate computes with
it.
-/

namespace MatchingEngine

/-- `char::is_whitespace`. -/
def isWhitespace (c : Char) : Bool :=
  let n := c.toNat
  (9 ≤ n && n ≤ 13) || n = 0x20 || n = 0x85 || n = 0xA0 || n = 0x1680 || (0x2000 ≤ n && n ≤ 0x200A) ||
    n = 0x2028 || n = 0x2029 || n = 0x202F || n = 0x205F || n = 0x3000

/-- `str::trim`. -/
def trim (s : List Char) : List Char :=
  ((s.dropWhile isWhitespace).reverse.dropWhile isWhitespace).reverse

/-- `str::split_once`. -/
def splitOnce (c : Char) (s : List Char) : Option (List Char × List Char) :=
  match s.dropWhile (· ≠ c) with
  | [] => none
  | _ :: rest => some (s.takeWhile (· ≠ c), rest)

/-- A leading plus sign, which an integer may have. -/
def stripSign : List Char → List Char
  | c :: rest => if c = '+' then rest else c :: rest
  | [] => []

/-- `str::parse` for an unsigned integer below `bound`: digits, at least one, after an optional sign. -/
def parseUnsigned (bound : ℕ) (s : List Char) : Option (Fin bound) :=
  let digits := stripSign s
  if digits ≠ [] ∧ digits.all Char.isDigit = true then
    let value := digits.foldl (fun n c => 10 * n + (c.toNat - '0'.toNat)) 0
    if h : value < bound then some ⟨value, h⟩ else none
  else none

namespace RiskConfig

/-- The `match` over the keys. A value that does not parse leaves the field. -/
def set (config : RiskConfig) (key value : List Char) : RiskConfig :=
  if key = "max_open_orders".toList then
    match parseUnsigned (2 ^ 64) value with
    | some v => { config with maxOpenOrders := v.1, maxOpenOrders_lt := v.2 }
    | none => config
  else if key = "max_notional_ticks".toList then
    match parseUnsigned (2 ^ 128) value with
    | some v => { config with maxNotional := v.1, maxNotional_lt := v.2 }
    | none => config
  else if key = "price_band_pct".toList then
    match parseUnsigned (2 ^ 64) value with
    | some v => { config with priceBandPct := v.1, priceBandPct_lt := v.2 }
    | none => config
  else config

/-- One line of the file. -/
def readLine (config : RiskConfig) (line : List Char) : RiskConfig :=
  -- a carriage return at the end goes with the other white space
  match splitOnce '=' (trim (line.takeWhile (· ≠ '#'))) with
  | none => config
  | some (key, value) => config.set (trim key) ((trim value).filter (· ≠ '_'))

/-- The limits from the contents of the file, `none` when it cannot be read. -/
def load (contents : Option String) : RiskConfig :=
  match contents with
  | none => .default
  | some contents => (contents.toList.splitOn '\n').foldl readLine .default

/-- The value a key stands for in the file. -/
def line (key : String) (n : ℕ) : List Char := key.toList ++ '=' :: Nat.toDigits 10 n

/-- A file for a configuration. -/
def write (config : RiskConfig) : String := .ofList (['\n'].intercalate
  [line "max_open_orders" config.maxOpenOrders, line "max_notional_ticks" config.maxNotional,
    line "price_band_pct" config.priceBandPct])

/-- A character of a key or of a number. -/
def Plain (c : Char) : Prop := isWhitespace c = false ∧ c ≠ '#' ∧ c ≠ '=' ∧ c ≠ '\n'

instance : DecidablePred Plain := fun c =>
  inferInstanceAs (Decidable (isWhitespace c = false ∧ c ≠ '#' ∧ c ≠ '=' ∧ c ≠ '\n'))

theorem plain_of_isDigit {c : Char} (h : c.isDigit = true) : Plain c ∧ c ≠ '+' := by
  obtain ⟨h0, h9⟩ := Char.isDigit_iff_toNat.1 h
  have h0 : 48 ≤ c.toNat := h0
  have h9 : c.toNat ≤ 57 := h9
  have hne : ∀ d : Char, d.toNat < 48 ∨ 57 < d.toNat → c ≠ d := by
    rintro d hd rfl
    omega
  refine ⟨⟨?_, hne _ (by decide), hne _ (by decide), hne _ (by decide)⟩, hne _ (by decide)⟩
  unfold isWhitespace
  simp only [Bool.or_eq_false_iff, Bool.and_eq_false_iff, decide_eq_false_iff_not]
  omega

variable {s key : List Char} {n bound : ℕ}

theorem dropWhile_none {p : Char → Bool} (h : ∀ c ∈ s, p c = false) : s.dropWhile p = s := by
  cases s with
  | nil => rfl
  | cons c s => rw [List.dropWhile_cons, if_neg (by simp [h c])]

theorem trim_plain (h : ∀ c ∈ s, isWhitespace c = false) : trim s = s := by
  unfold trim
  rw [dropWhile_none h, dropWhile_none (by simpa using h), List.reverse_reverse]

theorem splitOnce_append {c : Char} (h : c ∉ key) : splitOnce c (key ++ c :: s) = some (key, s) := by
  have hkey : ∀ x ∈ key, decide (x ≠ c) = true := fun x hx => decide_eq_true (fun he => h (he ▸ hx))
  unfold splitOnce
  rw [List.dropWhile_append_of_pos hkey, List.takeWhile_append_of_pos hkey]
  simp

theorem toDigits_plain {c : Char} (hc : c ∈ Nat.toDigits 10 n) : Plain c ∧ c ≠ '+' :=
  plain_of_isDigit (Nat.isDigit_of_mem_toDigits (by decide) (by decide) hc)

/-- What is written in decimal is read back. -/
theorem parseUnsigned_toDigits (h : n < bound) : parseUnsigned bound (Nat.toDigits 10 n) = some ⟨n, h⟩ := by
  have hsign : stripSign (Nat.toDigits 10 n) = Nat.toDigits 10 n := by
    cases hd : Nat.toDigits 10 n with
    | nil => rfl
    | cons c rest => exact if_neg (toDigits_plain (n := n) (hd ▸ List.mem_cons_self)).2
  have hdigits : (Nat.toDigits 10 n).all Char.isDigit = true :=
    List.all_eq_true.2 (fun c hc => Nat.isDigit_of_mem_toDigits (by decide) (by decide) hc)
  have hvalue : (Nat.toDigits 10 n).foldl (fun n c => 10 * n + (c.toNat - '0'.toNat)) 0 = n :=
    Nat.ofDigitChars_ten_toDigits
  unfold parseUnsigned
  rw [hsign, if_pos ⟨Nat.toDigits_ne_nil, hdigits⟩]
  simp only [hvalue, dif_pos h]

/-- A written line sets its key. -/
theorem readLine_line (config : RiskConfig) {key : String} (hkey : ∀ c ∈ key.toList, Plain c) (n : ℕ) :
    config.readLine (line key n) = config.set key.toList (Nat.toDigits 10 n) := by
  have hplain : ∀ c ∈ line key n, isWhitespace c = false ∧ c ≠ '#' := by
    intro c hc
    rcases List.mem_append.1 hc with hc | hc
    · exact ⟨(hkey c hc).1, (hkey c hc).2.1⟩
    · rcases List.mem_cons.1 hc with rfl | hc
      · decide
      · exact ⟨(toDigits_plain hc).1.1, (toDigits_plain hc).1.2.1⟩
  have hcomment : (line key n).takeWhile (· ≠ '#') = line key n :=
    List.takeWhile_eq_self_iff.2 (fun c hc => decide_eq_true (hplain c hc).2)
  have hsplit : splitOnce '=' (line key n) = some (key.toList, Nat.toDigits 10 n) :=
    splitOnce_append (fun he => (hkey '=' he).2.2.1 rfl)
  have hvalue : (Nat.toDigits 10 n).filter (· ≠ '_') = Nat.toDigits 10 n := by
    refine List.filter_eq_self.2 (fun c hc => decide_eq_true ?_)
    rintro rfl
    exact Nat.underscore_not_in_toDigits hc
  unfold readLine
  rw [hcomment, trim_plain (fun c hc => (hplain c hc).1), hsplit]
  simp only
  rw [trim_plain (fun c hc => (hkey c hc).1), trim_plain (fun c hc => (toDigits_plain hc).1.1), hvalue]

theorem set_open (config : RiskConfig) (h : n < 2 ^ 64) :
    config.set "max_open_orders".toList (Nat.toDigits 10 n) =
      { config with maxOpenOrders := n, maxOpenOrders_lt := h } := by
  unfold set
  rw [if_pos rfl, parseUnsigned_toDigits h]

theorem set_notional (config : RiskConfig) (h : n < 2 ^ 128) :
    config.set "max_notional_ticks".toList (Nat.toDigits 10 n) =
      { config with maxNotional := n, maxNotional_lt := h } := by
  unfold set
  rw [if_neg (by decide +kernel), if_pos rfl, parseUnsigned_toDigits h]

theorem set_band (config : RiskConfig) (h : n < 2 ^ 64) :
    config.set "price_band_pct".toList (Nat.toDigits 10 n) =
      { config with priceBandPct := n, priceBandPct_lt := h } := by
  unfold set
  rw [if_neg (by decide +kernel), if_neg (by decide +kernel), if_pos rfl, parseUnsigned_toDigits h]

/-- **Nothing is validated**: every configuration is read from some file. -/
theorem load_write (config : RiskConfig) : load (some config.write) = config := by
  have hline : ∀ (key : String) n, (∀ c ∈ key.toList, Plain c) → '\n' ∉ line key n := by
    intro key n hkey hc
    rcases List.mem_append.1 hc with hc | hc
    · exact (hkey _ hc).2.2.2 rfl
    · rcases List.mem_cons.1 hc with hc | hc
      · exact absurd hc (by decide)
      · exact (toDigits_plain hc).1.2.2.2 rfl
  have hopen : ∀ c ∈ "max_open_orders".toList, Plain c := by simp [Plain, isWhitespace]
  have hnotional : ∀ c ∈ "max_notional_ticks".toList, Plain c := by simp [Plain, isWhitespace]
  have hband : ∀ c ∈ "price_band_pct".toList, Plain c := by simp [Plain, isWhitespace]
  have hsplit : config.write.toList.splitOn '\n' =
      [line "max_open_orders" config.maxOpenOrders, line "max_notional_ticks" config.maxNotional,
        line "price_band_pct" config.priceBandPct] := by
    unfold write
    rw [String.toList_ofList]
    refine List.splitOn_intercalate '\n' ?_ (by simp)
    intro l hl
    simp only [List.mem_cons, List.not_mem_nil, or_false] at hl
    rcases hl with rfl | rfl | rfl
    · exact hline _ _ hopen
    · exact hline _ _ hnotional
    · exact hline _ _ hband
  unfold load
  simp only [hsplit, List.foldl_cons, List.foldl_nil, readLine_line _ hopen, readLine_line _ hnotional,
    readLine_line _ hband]
  rw [set_open _ config.maxOpenOrders_lt, set_notional _ config.maxNotional_lt, set_band _ config.priceBandPct_lt]

/-- The values of a configuration. -/
def values (config : RiskConfig) : ℕ × ℕ × ℕ := (config.maxOpenOrders, config.maxNotional, config.priceBandPct)

example : (load (some ("# limits\nmax_open_orders = 7\r\n\nmax_notional_ticks = 1_000 # gross\n" ++
    "price_band_pct=5"))).values =
    (7, 1000, 5) := by decide +kernel

end RiskConfig

end MatchingEngine
