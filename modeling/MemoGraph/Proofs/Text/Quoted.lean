import Mathlib.Data.List.Basic
import MemoGraph.Text.Quoted

/-!
# Quoted texts can be told apart

No escape is the beginning of another one, whichever characters are shown by their number: a text
can be cut into its escapes in one way only, and each escape belongs to one character.  So different
texts are quoted differently.
-/

set_option autoImplicit false

namespace MemoGraph.Text

/-! ## Hexadecimal numbers -/

/-- A digit below sixteen has a character of its own. -/
theorem digitChar_inj_of_lt {m n : Nat} (hm : m < 16) (hn : n < 16)
    (h : m.digitChar = n.digitChar) : m = n := by
  have hall : ∀ i j : Fin 16, i.val.digitChar = j.val.digitChar → i = j := by decide
  exact congrArg Fin.val (hall ⟨m, hm⟩ ⟨n, hn⟩ h)

/-- A number is written in the characters of digits. -/
theorem exists_digit_of_mem_toDigits {n : Nat} {c : Char} (h : c ∈ Nat.toDigits 16 n) :
    ∃ d < 16, c = d.digitChar := by
  induction n using Nat.strongRecOn with
  | _ n ih =>
      rw [Nat.toDigits_eq_if (by decide)] at h
      split at h
      · rename_i hlt
        exact ⟨n, hlt, List.mem_singleton.mp h⟩
      · rcases List.mem_append.mp h with h | h
        · exact ih (n / 16) (by omega) h
        · exact ⟨n % 16, Nat.mod_lt n (by decide), List.mem_singleton.mp h⟩

/-- The end of a number is none of its digits. -/
theorem brace_notMem_toDigits (n : Nat) : '\x7d' ∉ Nat.toDigits 16 n := by
  intro h
  obtain ⟨d, hd, hc⟩ := exists_digit_of_mem_toDigits h
  have hall : ∀ i : Fin 16, '\x7d' ≠ i.val.digitChar := by decide
  exact hall ⟨d, hd⟩ hc

/-- Numbers are told apart by their digits. -/
theorem toDigits_injective : Function.Injective (Nat.toDigits 16) := by
  intro m
  induction m using Nat.strongRecOn with
  | _ m ih =>
      intro n h
      have hone : m < 16 ↔ n < 16 := by
        have hlength :=
          Nat.length_toDigits_le_iff (n := m) (b := 16) (k := 1) (by decide) (by decide)
        rw [h, Nat.length_toDigits_le_iff (by decide) (by decide)] at hlength
        simpa using hlength.symm
      rw [Nat.toDigits_eq_if (by decide), Nat.toDigits_eq_if (n := n) (by decide)] at h
      by_cases hm : m < 16
      · rw [if_pos hm, if_pos (hone.mp hm)] at h
        exact digitChar_inj_of_lt hm (hone.mp hm) (List.singleton_inj.mp h)
      · rw [if_neg hm, if_neg (mt hone.mpr hm)] at h
        obtain ⟨hinit, hlast⟩ := List.append_inj' h rfl
        have hdiv : m / 16 = n / 16 := ih (m / 16) (by omega) hinit
        have hmod : m % 16 = n % 16 := digitChar_inj_of_lt (Nat.mod_lt m (by decide))
          (Nat.mod_lt n (by decide)) (List.singleton_inj.mp hlast)
        omega

/-! ## Escapes -/

/-- The characters that have a letter, each with its letter. -/
def lettered : List (Char × Char) :=
  [('"', '"'), ('\\', '\\'), ('\n', 'n'), ('\r', 'r'), ('\t', 't'), ('\x00', '0')]

theorem mem_lettered_of_shortEscape? {c letter : Char} (h : shortEscape? c = some letter) :
    (c, letter) ∈ lettered := by
  unfold shortEscape? at h
  split at h
  case h_7 => cases h
  all_goals
    obtain rfl := Option.some.inj h
    decide

/-- A letter belongs to one character. -/
theorem shortEscape?_inj {a b letter : Char} (ha : shortEscape? a = some letter)
    (hb : shortEscape? b = some letter) : a = b := by
  have hall : ∀ p ∈ lettered, ∀ q ∈ lettered, p.2 = q.2 → p.1 = q.1 := by decide
  exact hall _ (mem_lettered_of_shortEscape? ha) _ (mem_lettered_of_shortEscape? hb) rfl

/-- No letter announces a number. -/
theorem shortEscape?_ne_u (c : Char) : shortEscape? c ≠ some 'u' := by
  intro h
  have hall : ∀ p ∈ lettered, p.2 ≠ 'u' := by decide
  exact hall _ (mem_lettered_of_shortEscape? h) rfl

/-- A character stands as its letter after a backslash, as its number, or for itself. -/
theorem escape_cases (special : Char → Bool) (c : Char) :
    (∃ letter, shortEscape? c = some letter ∧ escape special c = ['\\', letter]) ∨
      escape special c = numberEscape c ∨ c ≠ '\\' ∧ escape special c = [c] := by
  cases h : shortEscape? c with
  | some letter => exact .inl ⟨letter, rfl, by simp [escape, h]⟩
  | none =>
      have hc : c ≠ '\\' := by
        rintro rfl
        cases h
      cases hs : special c with
      | true => exact .inr (.inl (by simp [escape, h, hs]))
      | false => exact .inr (.inr ⟨hc, by simp [escape, h, hs]⟩)

/-- The digits of a number can be read off what follows them. -/
theorem takeWhile_toDigits_append (n : Nat) (rest : List Char) :
    (Nat.toDigits 16 n ++ '\x7d' :: rest).takeWhile (fun c => decide (c ≠ '\x7d')) =
      Nat.toDigits 16 n := by
  rw [List.takeWhile_append_of_pos, List.takeWhile_cons_of_neg (by simp), List.append_nil]
  intro c hc
  exact decide_eq_true fun he => brace_notMem_toDigits n (he ▸ hc)

theorem numberEscape_append_inj {a b : Char} {s t : List Char}
    (h : numberEscape a ++ s = numberEscape b ++ t) : a = b := by
  have hdigits : Nat.toDigits 16 a.toNat ++ '\x7d' :: s =
      Nat.toDigits 16 b.toNat ++ '\x7d' :: t := by
    simpa [numberEscape] using h
  have hsame : Nat.toDigits 16 a.toNat = Nat.toDigits 16 b.toNat := by
    rw [← takeWhile_toDigits_append a.toNat s, hdigits, takeWhile_toDigits_append]
  exact Char.toNat_inj.mp (toDigits_injective hsame)

/-- No escape is the beginning of another one. -/
theorem escape_append_inj {special : Char → Bool} {a b : Char} {s t : List Char}
    (h : escape special a ++ s = escape special b ++ t) : a = b ∧ s = t := by
  suffices hab : a = b by
    subst hab
    exact ⟨rfl, List.append_cancel_left h⟩
  -- A literal character differs from the backslash of the other forms, and a letter from the `u` of
  -- a number, so only escapes of one form can agree.
  have hfirst := congrArg List.head? h
  have hsecond := congrArg (fun l : List Char => l[1]?) h
  rcases escape_cases special a with ⟨x, hx, ha⟩ | ha | ⟨ha', ha⟩
  · rcases escape_cases special b with ⟨y, hy, hb⟩ | hb | ⟨hb', hb⟩
    · have hxy : x = y := by simpa [ha, hb] using hsecond
      exact shortEscape?_inj hx (hxy ▸ hy)
    · have hxu : x = 'u' := by simpa [ha, hb, numberEscape] using hsecond
      exact absurd (hxu ▸ hx) (shortEscape?_ne_u a)
    · have hslash : '\\' = b := by simpa [ha, hb] using hfirst
      exact absurd hslash.symm hb'
  · rcases escape_cases special b with ⟨y, hy, hb⟩ | hb | ⟨hb', hb⟩
    · have huy : 'u' = y := by simpa [ha, hb, numberEscape] using hsecond
      exact absurd (huy ▸ hy) (shortEscape?_ne_u b)
    · exact numberEscape_append_inj (ha ▸ hb ▸ h)
    · have hslash : '\\' = b := by simpa [ha, hb, numberEscape] using hfirst
      exact absurd hslash.symm hb'
  · rcases escape_cases special b with ⟨y, hy, hb⟩ | hb | ⟨hb', hb⟩
    · have hslash : a = '\\' := by simpa [ha, hb] using hfirst
      exact absurd hslash ha'
    · have hslash : a = '\\' := by simpa [ha, hb, numberEscape] using hfirst
      exact absurd hslash ha'
    · simpa [ha, hb] using hfirst

theorem escape_ne_nil (special : Char → Bool) (c : Char) : escape special c ≠ [] := by
  rcases escape_cases special c with ⟨x, hx, hc⟩ | hc | ⟨hc', hc⟩
  · simp [hc]
  · simp [hc, numberEscape]
  · simp [hc]

/-! ## Quoted texts -/

/-- A text is cut into its escapes in one way only. -/
theorem flatMap_escape_injective (special : Char → Bool) :
    Function.Injective (List.flatMap (escape special)) := by
  intro s
  induction s with
  | nil =>
      intro t h
      cases t with
      | nil => rfl
      | cons b t =>
          have hnil := List.append_eq_nil_iff.mp (List.flatMap_cons ▸ h.symm)
          exact absurd hnil.1 (escape_ne_nil special b)
  | cons a s ih =>
      intro t h
      cases t with
      | nil =>
          have hnil := List.append_eq_nil_iff.mp (List.flatMap_cons ▸ h)
          exact absurd hnil.1 (escape_ne_nil special a)
      | cons b t =>
          rw [List.flatMap_cons, List.flatMap_cons] at h
          obtain ⟨rfl, hrest⟩ := escape_append_inj h
          rw [ih hrest]

/-- Different texts are quoted differently, whichever characters are shown by their number. -/
theorem quoteWith_injective (special : Char → Bool) : Function.Injective (quoteWith special) := by
  intro s t h
  have hinner := List.append_cancel_right (List.cons.inj h).2
  exact flatMap_escape_injective special hinner

theorem quote_injective : Function.Injective quote := by
  intro s t h
  exact String.toList_inj.mp (quoteWith_injective isSpecial (String.ofList_inj.mp h))

end MemoGraph.Text
