import Mathlib.Data.Nat.Bitwise
import YangScript.Text.Casing

/-!
# Capitals are capitals of themselves

The first character of a capital has no capital but itself, and a capital holds a delimiter only if
it is the capital of that delimiter. Both are facts about the whole table of letters. Sets of codes
are kept as numbers with one bit for each code, so that the letters and the capitals are compared
at once and not one by one.
-/

set_option autoImplicit false

namespace YangScript.Text

/-- A set of codes as a number. -/
def codeSet (codes : List Nat) : Nat := codes.foldr (fun code set => set ||| 2 ^ code) 0

theorem testBit_codeSet (codes : List Nat) (n : Nat) :
    (codeSet codes).testBit n = true ↔ n ∈ codes := by
  induction codes with
  | nil => simp [codeSet]
  | cons code codes ih =>
    have hor : (codeSet (code :: codes)).testBit n =
        ((codeSet codes).testBit n || (2 ^ code).testBit n) := Nat.testBit_or ..
    rw [hor, Bool.or_eq_true, ih, Nat.testBit_two_pow, decide_eq_true_eq, List.mem_cons, or_comm,
      eq_comm]

theorem not_mem_of_codeSet {as bs : List Nat} (h : codeSet as &&& codeSet bs = 0) {n : Nat}
    (hn : n ∈ bs) : n ∉ as := by
  intro hn'
  have hbit : ((codeSet as).testBit n && (codeSet bs).testBit n) = false := by
    rw [← Nat.testBit_and, h, Nat.zero_testBit]
  rw [(testBit_codeSet as n).mpr hn', (testBit_codeSet bs n).mpr hn] at hbit
  exact absurd hbit (by decide)

/-! ## The table -/

def CaseRange.codes (r : CaseRange) : List Nat :=
  (List.range' r.first (r.last + 1 - r.first)).filter r.covers

theorem CaseRange.mem_codes {r : CaseRange} {n : Nat} (h : r.covers n = true) : n ∈ r.codes := by
  refine List.mem_filter.mpr ⟨List.mem_range'_1.mpr ?_, h⟩
  simp only [covers, Bool.and_eq_true, decide_eq_true_eq] at h
  omega

/-- The codes that have a capital in the table. -/
def letterCodes : List Nat :=
  longCapitals.map Prod.fst ++ caseRanges.flatMap CaseRange.codes

/-- The capitals in the table. -/
def letterCapitals : List (List Nat) :=
  longCapitals.map Prod.snd ++
    caseRanges.flatMap (fun r => r.codes.map (fun (n : Nat) => [(n + r.shift : Int).toNat]))

theorem capitalCodes_of_not_mem {n : Nat} (h : n ∉ letterCodes) : capitalCodes n = [n] := by
  have hlong : longCapitals.lookup n = none := by
    refine List.lookup_eq_none_iff.mpr fun entry hentry => ?_
    simp only [bne_iff_ne, ne_eq]
    rintro rfl
    exact h (List.mem_append_left _ (List.mem_map_of_mem hentry))
  have hrange : caseRanges.find? (·.covers n) = none := by
    refine List.find?_eq_none.mpr fun r hr hcovers => ?_
    exact h (List.mem_append_right _ (List.mem_flatMap.mpr ⟨r, hr, r.mem_codes hcovers⟩))
  rw [capitalCodes, hlong, hrange]

theorem capitalCodes_cases (n : Nat) : capitalCodes n = [n] ∨ capitalCodes n ∈ letterCapitals := by
  unfold capitalCodes
  split
  · rename_i codes hlong
    obtain ⟨before, behind, hsplit, -⟩ := List.lookup_eq_some_iff.mp hlong
    have hentry : (n, codes) ∈ longCapitals := by simp [hsplit]
    exact Or.inr (List.mem_append_left _ (List.mem_map_of_mem (f := Prod.snd) hentry))
  · split
    · rename_i r hfind
      have hcovers : r.covers n = true := by simpa using List.find?_some hfind
      have hr := List.mem_of_find?_eq_some hfind
      exact Or.inr (List.mem_append_right _
        (List.mem_flatMap.mpr ⟨r, hr, List.mem_map_of_mem (r.mem_codes hcovers)⟩))
    · exact Or.inl rfl

def firstCapitals : List Nat := letterCapitals.filterMap List.head?

-- One evaluation for all pairs of a letter and a capital: the two numbers have no bit in common.
theorem letterCodes_apart : codeSet letterCodes &&& codeSet firstCapitals = 0 := by
  decide +kernel

/-- A code of a character that is no delimiter. -/
def isLetterCode (n : Nat) : Bool :=
  (Nat.ble n 0xD7FF || Nat.ble 0xE000 n && Nat.ble n 0x10FFFF) && !(n == 0x2D || n == 0x5F)

theorem letterCapitals_plain :
    letterCapitals.all (fun codes => !codes.isEmpty && codes.all isLetterCode) = true := by
  decide +kernel

theorem capitalCodes_first {m : Nat} {codes : List Nat} (h : m :: codes ∈ letterCapitals) :
    capitalCodes m = [m] :=
  capitalCodes_of_not_mem
    (not_mem_of_codeSet letterCodes_apart (List.mem_filterMap.mpr ⟨_, h, rfl⟩))

/-! ## Characters -/

theorem toNat_of_isLetterCode {n : Nat} (h : isLetterCode n = true) :
    (Char.ofNat n).toNat = n ∧ isDelimiter (Char.ofNat n) = false := by
  simp only [isLetterCode, Bool.and_eq_true, Bool.or_eq_true, Nat.ble_eq, Bool.not_eq_true',
    Bool.or_eq_false_iff, beq_eq_false_iff_ne] at h
  obtain ⟨hrange, hhyphen, hunderscore⟩ := h
  have hvalid : n.isValidChar := by
    unfold Nat.isValidChar
    omega
  have hcode : (Char.ofNat n).toNat = n := by
    rw [Char.ofNat, dif_pos hvalid]
    rfl
  refine ⟨hcode, ?_⟩
  simp only [isDelimiter, Bool.or_eq_false_iff, beq_eq_false_iff_ne]
  constructor
  · intro h
    exact hhyphen (hcode.symm.trans (congrArg Char.toNat h))
  · intro h
    exact hunderscore (hcode.symm.trans (congrArg Char.toNat h))

theorem uppercase_cases (c : Char) :
    uppercase c = [c] ∨
      ∃ m codes, m :: codes ∈ letterCapitals ∧ uppercase c = (m :: codes).map Char.ofNat := by
  rcases capitalCodes_cases c.toNat with hself | hmem
  · exact Or.inl (by rw [uppercase, hself, List.map_singleton, Char.ofNat_toNat])
  · cases hcodes : capitalCodes c.toNat with
    | nil =>
      rw [hcodes] at hmem
      exact absurd (List.all_eq_true.mp letterCapitals_plain [] hmem) (by decide)
    | cons m codes =>
      rw [hcodes] at hmem
      exact Or.inr ⟨m, codes, hmem, by rw [uppercase, hcodes]⟩

theorem isLetterCode_of_mem {codes : List Nat} (h : codes ∈ letterCapitals) :
    ∀ n ∈ codes, isLetterCode n = true := by
  have hplain := List.all_eq_true.mp letterCapitals_plain codes h
  rw [Bool.and_eq_true] at hplain
  exact List.all_eq_true.mp hplain.2

/-- A capital starts with a character that is its own capital. -/
theorem exists_uppercase (c : Char) : ∃ d ds, uppercase c = d :: ds ∧ uppercase d = [d] := by
  rcases uppercase_cases c with hself | ⟨m, codes, hmem, hcapital⟩
  · exact ⟨c, [], hself, hself⟩
  · have hcode := (toNat_of_isLetterCode (isLetterCode_of_mem hmem m List.mem_cons_self)).1
    refine ⟨Char.ofNat m, codes.map Char.ofNat, by rw [hcapital, List.map_cons], ?_⟩
    rw [uppercase, hcode, capitalCodes_first hmem, List.map_singleton]

/-- There is no delimiter in the capital of any other character. -/
theorem isDelimiter_of_mem_uppercase {c d : Char} (hc : isDelimiter c = false)
    (hd : d ∈ uppercase c) : isDelimiter d = false := by
  rcases uppercase_cases c with hself | ⟨m, codes, hmem, hcapital⟩
  · rw [hself, List.mem_singleton] at hd
    rw [hd]
    exact hc
  · rw [hcapital] at hd
    obtain ⟨n, hn, rfl⟩ := List.mem_map.mp hd
    exact (toNat_of_isLetterCode (isLetterCode_of_mem hmem n hn)).2

end YangScript.Text
