import LiteSql.Text.Case
import LiteSql.Text.Word

/-! Letter case and the classes of characters. Of two characters that differ only in case, with one
of them in ASCII, both are word characters or none is. -/

namespace LiteSql

def leadsOut : Nat × Nat × Nat × Int → Bool
  | (first, last, _, shift) =>
    (decide (0x80 ≤ first + shift) && (decide (last + shift < 0xd800) ||
      (decide (0xdfff < first + shift) && decide (last + shift < 0x110000)))) ||
    (first == last && [0x69, 0x6b, 0x73].contains (first + shift) &&
      [0x130, 0x131, 0x17f, 0x212a].contains first)

theorem leadsOut_wideCaseShifts : wideCaseShifts.all leadsOut = true := by decide

theorem toNat_ofNat (n : Nat) (valid : n.isValidChar) : (Char.ofNat n).toNat = n := by
  rw [Char.ofNat, dif_pos valid]
  rfl

/-- What holds of the ASCII characters, checked one by one, holds of every character below. -/
theorem forall_ascii (p : Char → Bool)
    (checked : (List.range 0x80).all (fun n => p (Char.ofNat n)) = true)
    (c : Char) (ascii : c.toNat < 0x80) : p c = true := by
  have found := List.all_eq_true.mp checked c.toNat (List.mem_range.mpr ascii)
  rwa [Char.ofNat_toNat] at found

theorem forall_inRanges {ranges : List (Nat × Nat)} (p : Char → Bool)
    (checked : ∀ range ∈ ranges, ∀ n ∈ List.range' range.1 (range.2 + 1 - range.1),
      p (Char.ofNat n) = true) {c : Char} (inside : inRanges ranges c = true) : p c = true := by
  obtain ⟨range, member, bounds⟩ := List.any_eq_true.mp inside
  rw [Bool.and_eq_true, decide_eq_true_eq, decide_eq_true_eq] at bounds
  have found := checked range member c.toNat (List.mem_range'_1.mpr (by omega))
  rwa [Char.ofNat_toNat] at found

theorem isWordChar_of_isBlank {c : Char} (blank : isBlank c = true) : isWordChar c = false := by
  have other := forall_inRanges (fun c => !isWordChar c) (by decide +kernel) blank
  rwa [Bool.not_eq_true'] at other

theorem isBlank_of_isWordChar {c : Char} (letter : isWordChar c = true) : isBlank c = false := by
  rw [← Bool.not_eq_true]
  intro blank
  rw [isWordChar_of_isBlank blank] at letter
  cases letter

theorem foldCase_ascii (c : Char) (ascii : c.toNat < 0x80) :
    (foldCase c).toNat < 0x80 ∧ isWordChar (foldCase c) = isWordChar c := by
  have checked := forall_ascii
    (fun c => decide ((foldCase c).toNat < 0x80) && (isWordChar (foldCase c) == isWordChar c))
    (by decide) c ascii
  simpa using checked

/-- Outside ASCII only a few letters stand for an ASCII letter when case is ignored. -/
theorem foldCase_wide (c : Char) (wide : 0x80 ≤ c.toNat) (narrow : (foldCase c).toNat < 0x80) :
    c ∈ ['İ', 'ı', 'ſ', '\u212a'] := by
  simp only [foldCase, Nat.not_lt.mpr wide, if_false] at narrow
  split at narrow
  · next first last step shift found =>
      have row := List.all_eq_true.mp leadsOut_wideCaseShifts _ (List.mem_of_find?_eq_some found)
      have bounds := List.find?_some found
      simp only [Bool.and_eq_true, decide_eq_true_eq, beq_iff_eq] at bounds
      simp only [leadsOut, Bool.or_eq_true, Bool.and_eq_true, decide_eq_true_eq, beq_iff_eq,
        List.contains_iff_mem] at row
      rcases row with ⟨above, valid⟩ | ⟨⟨single, -⟩, source⟩
      · have isValid : (c.toNat + shift).toNat.isValidChar := by
          simp only [Nat.isValidChar]
          omega
        rw [toNat_ofNat _ isValid] at narrow
        omega
      · have only : c.toNat = first := by omega
        have image := List.mem_map_of_mem (f := Char.ofNat) source
        rwa [← only, Char.ofNat_toNat] at image
  · omega

theorem isWordChar_foldCase (c : Char) (narrow : (foldCase c).toNat < 0x80) :
    isWordChar (foldCase c) = isWordChar c := by
  by_cases ascii : c.toNat < 0x80
  · exact (foldCase_ascii c ascii).2
  · have few := foldCase_wide c (Nat.not_lt.mp ascii) narrow
    simp only [List.mem_cons, List.not_mem_nil, or_false] at few
    rcases few with rfl | rfl | rfl | rfl <;> decide +kernel

/-- Ignoring case does not confuse word characters with ASCII signs, nor the other way round. -/
theorem isWordChar_congr {c d : Char} (same : sameIgnoringCase c d = true)
    (ascii : c.toNat < 0x80 ∨ d.toNat < 0x80) : isWordChar c = isWordChar d := by
  have folded : foldCase c = foldCase d := by simpa [sameIgnoringCase] using same
  have narrow : (foldCase c).toNat < 0x80 := by
    rcases ascii with first | second
    · exact (foldCase_ascii c first).1
    · rw [folded]
      exact (foldCase_ascii d second).1
  rw [← isWordChar_foldCase c narrow, folded, isWordChar_foldCase d (folded ▸ narrow)]

/-- What holds of the ASCII characters and of the few letters that stand for one, checked one by
one, holds of every character that differs from an ASCII character in its case only. -/
theorem forall_sameIgnoringCase {c d : Char} (p : Char → Bool) (ascii : c.toNat < 0x80)
    (checked : (List.range 0x80).all (fun n => !sameIgnoringCase c (Char.ofNat n) || p
      (Char.ofNat n)) = true)
    (others : ∀ e ∈ ['İ', 'ı', 'ſ', '\u212a'], sameIgnoringCase c e = true → p e = true)
    (same : sameIgnoringCase c d = true) : p d = true := by
  by_cases narrow : d.toNat < 0x80
  · have found := forall_ascii (fun d => !sameIgnoringCase c d || p d) checked d narrow
    simpa [same] using found
  · have folded : foldCase c = foldCase d := by simpa [sameIgnoringCase] using same
    exact others d (foldCase_wide d (Nat.not_lt.mp narrow)
      (folded ▸ (foldCase_ascii c ascii).1)) same

end LiteSql
