import Mathlib.Data.List.Basic
import Mathlib.Tactic.Common
import Bytecode.Decimal

/-!
Numbers that are written in decimal are read back, alone and one to a line, and are told apart in
front of any word that does not begin with a digit and behind any that does not end in one.
-/

namespace Bytecode.Decimal

lemma isDigit_of_mem_toDigits {n : Nat} : ∀ c ∈ Nat.toDigits 10 n, c.isDigit :=
  fun _ => Nat.isDigit_of_mem_toDigits (by decide) (by decide)

lemma head?_toDigits_ne_zero {n : Nat} (hn : 0 < n) : (Nat.toDigits 10 n).head? ≠ some '0' := by
  induction n using Nat.strongRecOn with
  | ind n ih =>
    rcases Nat.lt_or_ge n 10 with hlt | hge
    · rw [Nat.toDigits_of_lt_base hlt, List.head?_singleton]
      have key : ∀ m < 10, 0 < m → some (Nat.digitChar m) ≠ some '0' := by decide
      exact key n hlt hn
    · -- the first digit is the first one of all but the last
      have hrest := ih (n / 10) (by omega) (by omega)
      rw [Nat.toDigits_of_base_le (by decide) hge,
        List.head?_append_of_ne_nil _ Nat.toDigits_ne_nil]
      exact hrest

theorem number?_toDigits (n : Nat) : number? (Nat.toDigits 10 n) = some n := by
  rcases Nat.eq_zero_or_pos n with rfl | hn
  · rfl
  · have hdigits : (Nat.toDigits 10 n).all Char.isDigit = true :=
      List.all_eq_true.2 fun _ hc => Nat.isDigit_of_mem_toDigits (by decide) (by decide) hc
    have hvalue : Nat.ofDigitChars 10 (Nat.toDigits 10 n) 0 = n := Nat.ofDigitChars_ten_toDigits
    have hhead := head?_toDigits_ne_zero hn
    rcases hd : Nat.toDigits 10 n with _ | ⟨c, cs⟩
    · exact absurd hd Nat.toDigits_ne_nil
    · rw [hd] at hdigits hvalue hhead
      have hc : c ≠ '0' := fun h => hhead (congrArg some h)
      unfold number?
      split <;> simp_all

theorem ofText?_toString (n : Nat) : ofText? (toString n) = some n := by
  rw [ofText?, Nat.toString_eq_ofList_toDigits, String.toList_ofList, number?_toDigits]

lemma toDigits_inj {m n : Nat} : Nat.toDigits 10 m = Nat.toDigits 10 n ↔ m = n := by
  refine ⟨fun h => ?_, congrArg _⟩
  rw [← Option.some_inj, ← number?_toDigits m, h, number?_toDigits]

lemma toString_inj {m n : Nat} : toString m = toString n ↔ m = n := by
  rw [Nat.toString_eq_ofList_toDigits, Nat.toString_eq_ofList_toDigits, String.ofList_inj,
    toDigits_inj]

/-! ### Numbers among words -/

lemma digits_append_inj {c : Char} (hc : c.isDigit = false) {ds es r s : List Char}
    (hds : ∀ d ∈ ds, d.isDigit) (hes : ∀ e ∈ es, e.isDigit) :
    ds ++ c :: r = es ++ c :: s ↔ ds = es ∧ r = s := by
  -- the digits are all that stands in front of the first other character
  have hend : ∀ fs t, (∀ f ∈ fs, f.isDigit) → (fs ++ c :: t).takeWhile Char.isDigit = fs := by
    intro fs t hfs
    rw [List.takeWhile_append_of_pos hfs, List.takeWhile_cons_of_neg (by simp [hc]),
      List.append_nil]
  refine ⟨fun h => ?_, fun ⟨hd, hr⟩ => by rw [hd, hr]⟩
  obtain rfl : ds = es := by rw [← hend ds r hds, h, hend es s hes]
  exact ⟨rfl, (List.cons.inj (List.append_cancel_left h)).2⟩

lemma toDigits_append_inj {m n : Nat} {c : Char} (hc : c.isDigit = false) {r s : List Char} :
    Nat.toDigits 10 m ++ c :: r = Nat.toDigits 10 n ++ c :: s ↔ m = n ∧ r = s := by
  rw [digits_append_inj hc isDigit_of_mem_toDigits isDigit_of_mem_toDigits, toDigits_inj]

lemma append_toDigits_inj {m n : Nat} {c : Char} (hc : c.isDigit = false) {r s : List Char} :
    r ++ c :: Nat.toDigits 10 m = s ++ c :: Nat.toDigits 10 n ↔ r = s ∧ m = n := by
  have hdigits : ∀ k, ∀ d ∈ (Nat.toDigits 10 k).reverse, d.isDigit :=
    fun k d hd => isDigit_of_mem_toDigits d (List.mem_reverse.1 hd)
  -- read from the right end, the number stands in front
  rw [← List.reverse_inj, List.reverse_append, List.reverse_append, List.reverse_cons,
    List.reverse_cons, List.append_assoc, List.append_assoc, List.singleton_append,
    List.singleton_append, digits_append_inj hc (hdigits m) (hdigits n), List.reverse_inj,
    List.reverse_inj, toDigits_inj, and_comm]

lemma toString_append_inj (words : String)
    (h : (words.toList.head?.any fun c => !c.isDigit) = true) {m n : Nat} {r s : String} :
    toString m ++ (words ++ r) = toString n ++ (words ++ s) ↔ m = n ∧ r = s := by
  obtain ⟨c, hhead, hc⟩ := (Option.any_eq_true _ _).1 h
  obtain ⟨cs, hwords⟩ := List.head?_eq_some_iff.1 hhead
  rw [Bool.not_eq_true'] at hc
  simp only [← String.toList_inj, String.toList_append, Nat.toString_eq_ofList_toDigits,
    String.toList_ofList, hwords, List.cons_append, toDigits_append_inj hc,
    List.append_cancel_left_eq]

lemma append_toString_inj (words : String)
    (h : (words.toList.getLast?.any fun c => !c.isDigit) = true) {m n : Nat} {r s : String} :
    r ++ words ++ toString m = s ++ words ++ toString n ↔ r = s ∧ m = n := by
  obtain ⟨c, hlast, hc⟩ := (Option.any_eq_true _ _).1 h
  obtain ⟨cs, hwords⟩ := List.getLast?_eq_some_iff.1 hlast
  rw [Bool.not_eq_true'] at hc
  simp only [← String.toList_inj, String.toList_append, Nat.toString_eq_ofList_toDigits,
    String.toList_ofList, hwords, List.append_assoc, List.singleton_append]
  simp only [← List.append_assoc, append_toDigits_inj hc, List.append_cancel_right_eq]

/-! ### Lines -/

lemma lines?_append {line : List Char} (h : '\n' ∉ line) (rest : List Char) :
    lines? (line ++ '\n' :: rest) = (lines? rest).map (line :: ·) := by
  induction line with
  | nil => simp [lines?]
  | cons c line ih =>
    obtain ⟨hc, hline⟩ : c ≠ '\n' ∧ '\n' ∉ line := by simpa [eq_comm] using h
    rw [List.cons_append, lines?, if_neg hc, ih hline]
    cases lines? rest <;> rfl

lemma lines?_flatMap {lines : List (List Char)} (h : ∀ line ∈ lines, '\n' ∉ line) :
    lines? (lines.flatMap (· ++ ['\n'])) = some lines := by
  induction lines with
  | nil => rfl
  | cons line lines ih =>
    have hline : '\n' ∉ line := h line List.mem_cons_self
    have hlines := ih fun l hl => h l (List.mem_cons_of_mem _ hl)
    rw [List.flatMap_cons, List.append_assoc, List.singleton_append, lines?_append hline, hlines]
    rfl

lemma newline_not_mem_toDigits (n : Nat) : '\n' ∉ Nat.toDigits 10 n := by
  intro h
  exact absurd (isDigit_of_mem_toDigits _ h) (by decide)

lemma toList_join_toString (ns : List Nat) :
    (String.join (ns.map fun n => toString n ++ "\n")).toList =
      (ns.map (Nat.toDigits 10)).flatMap (· ++ ['\n']) := by
  simp [List.flatMap_def, Function.comp_def]

lemma mapM_number?_toDigits (ns : List Nat) :
    (ns.map (Nat.toDigits 10)).mapM number? = some ns := by
  induction ns with
  | nil => rfl
  | cons n ns ih => simp [number?_toDigits, ih]

/-- **Numbers that are written one to a line are read back**, however many and large they are. -/
theorem ofLines?_join (ns : List Nat) :
    ofLines? (String.join (ns.map fun n => toString n ++ "\n")) = some ns := by
  have hnewline : ∀ line ∈ ns.map (Nat.toDigits 10), '\n' ∉ line := by
    intro line hline
    obtain ⟨n, -, rfl⟩ := List.mem_map.1 hline
    exact newline_not_mem_toDigits n
  rw [ofLines?, toList_join_toString, lines?_flatMap hnewline, Option.bind_some,
    mapM_number?_toDigits]

end Bytecode.Decimal
