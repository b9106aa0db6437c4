import Mathlib.Computability.Language

/-!
# The matcher of `grep`

`match`, `matchhere` and `matchstar` of `grep.c`, over strings without their final NUL. A pattern is read
from left to right as items, a character or a character and a star (`items`), and stands for a language.
`matchre_iff`: the matcher finds out whether some part of the text is in it, at the start of the text
behind a `^` and at its end before a `$`.
-/

namespace Xv6.Grep

open scoped Computability

/-- Search for `c*re` at the beginning of `text`, where `here` is `matchhere` of `re`. -/
def matchstar (here : List Char → Bool) (c : Char) : List Char → Bool
  | [] => here []
  | t :: text => here (t :: text) || ((t == c || c == '.') && matchstar here c text)

/-- Search for `re` at the beginning of `text`. -/
def matchhere : List Char → List Char → Bool
  | [], _ => true
  | c :: '*' :: re, text => matchstar (matchhere re) c text
  | ['$'], text => text.isEmpty
  | _ :: _, [] => false
  | c :: re, t :: text => (c == '.' || c == t) && matchhere re text

/-- The loop of `match`, over the ends of `text`. -/
def matchany (re : List Char) : List Char → Bool
  | [] => matchhere re []
  | t :: text => matchhere re (t :: text) || matchany re text

/-- `match` -/
def matchre : List Char → List Char → Bool
  | '^' :: re, text => matchhere re text
  | re, text => matchany re text

/-! ## Patterns -/

inductive Item where
  | one (c : Char)
  | many (c : Char)

def items : List Char → List Item
  | [] => []
  | c :: '*' :: re => .many c :: items re
  | c :: re => .one c :: items re

/-- What `c` stands for. -/
def letter (c : Char) : Language Char := {w | ∃ x, (c = '.' ∨ c = x) ∧ w = [x]}

def Item.lang : Item → Language Char
  | .one c => letter c
  | .many c => (letter c)∗

/-- The last item is a `$` without a star. -/
def Ends (its : List Item) : Prop := its.getLast? = some (.one '$')

open Classical in
/-- The language of a pattern without its `$`. -/
noncomputable def lang (its : List Item) : Language Char :=
  ((if Ends its then its.dropLast else its).map Item.lang).prod

/-- A `^` in first place is not an item. -/
def body : List Char → List Item
  | '^' :: re => items re
  | re => items re

variable {re text : List Char} {its : List Item} {i : Item} {c : Char}

/-! ## At the beginning of the text -/

/-- A beginning of the text is in the language. -/
def Here (its : List Item) (text : List Char) : Prop :=
  ∃ mid post, text = mid ++ post ∧ (Ends its → post = []) ∧ mid ∈ lang its

theorem here_nil (text : List Char) : Here [] text := ⟨[], text, rfl, nofun, by simp [lang]⟩

theorem here_end : Here [.one '$'] text ↔ text = [] := by
  have hlang : lang [.one '$'] = 1 := by simp [lang, Ends]
  constructor
  · rintro ⟨mid, post, rfl, hpost, hmid⟩
    rw [hlang, Language.mem_one] at hmid
    rw [hmid, hpost rfl, List.append_nil]
  · rintro rfl
    exact ⟨[], [], rfl, fun _ => rfl, by rw [hlang, Language.mem_one]⟩

theorem here_cons (h : its ≠ [] ∨ i ≠ .one '$') :
    Here (i :: its) text ↔ ∃ a b, text = a ++ b ∧ a ∈ i.lang ∧ Here its b := by
  have hends : Ends (i :: its) ↔ Ends its := by
    cases its with
    | nil => simpa [Ends] using h
    | cons => simp [Ends]
  have hlang : lang (i :: its) = i.lang * lang its := by
    rw [lang, lang]
    by_cases he : Ends its
    · rw [if_pos (hends.2 he), if_pos he, List.dropLast_cons_of_ne_nil fun h0 => by simp [h0, Ends] at he]
      simp
    · rw [if_neg (mt hends.1 he), if_neg he]
      simp
  constructor
  · rintro ⟨mid, post, rfl, hpost, hmid⟩
    rw [hlang] at hmid
    obtain ⟨a, ha, b, hb, rfl⟩ := Language.mem_mul.1 hmid
    exact ⟨a, b ++ post, List.append_assoc .., ha, b, post, rfl, fun he => hpost (hends.2 he), hb⟩
  · rintro ⟨a, _, rfl, ha, b, post, rfl, hpost, hb⟩
    refine ⟨a ++ b, post, (List.append_assoc ..).symm, fun he => hpost (hends.1 he), ?_⟩
    rw [hlang]
    exact Language.mem_mul.2 ⟨a, ha, b, hb, rfl⟩

theorem mem_kstar_letter {w : List Char} : w ∈ (letter c)∗ ↔ ∀ x ∈ w, c = '.' ∨ c = x := by
  rw [Language.mem_kstar]
  constructor
  · rintro ⟨ws, rfl, h⟩ x hx
    obtain ⟨w, hw, hxw⟩ := List.mem_flatten.1 hx
    obtain ⟨y, hy, rfl⟩ := h w hw
    rwa [List.mem_singleton.1 hxw]
  · intro h
    refine ⟨w.map ([·]), (List.flatMap_singleton' w).symm, fun y hy => ?_⟩
    obtain ⟨x, hx, rfl⟩ := List.mem_map.1 hy
    exact ⟨x, h x hx, rfl⟩

/-- A star takes characters as long as the rest does not match behind them. -/
theorem matchstar_iff {here : List Char → Bool} (h : ∀ text, here text = true ↔ Here its text) (text : List Char) :
    matchstar here c text = true ↔ ∃ a b, text = a ++ b ∧ a ∈ (letter c)∗ ∧ Here its b := by
  induction text with
  | nil =>
    rw [matchstar, h]
    constructor
    · exact fun hh => ⟨[], [], rfl, mem_kstar_letter.2 nofun, hh⟩
    · rintro ⟨a, b, he, -, hh⟩
      rwa [(List.nil_eq_append_iff.1 he).2] at hh
  | cons t text ih =>
    rw [matchstar, Bool.or_eq_true, h, Bool.and_eq_true, ih]
    simp only [mem_kstar_letter, Bool.or_eq_true, beq_iff_eq]
    constructor
    · rintro (hh | ⟨ht, a, b, rfl, ha, hh⟩)
      · exact ⟨[], t :: text, rfl, nofun, hh⟩
      · exact ⟨t :: a, b, rfl, List.forall_mem_cons.2 ⟨ht.symm.imp_right Eq.symm, ha⟩, hh⟩
    · rintro ⟨_ | ⟨x, a⟩, b, he, ha, hh⟩
      · exact .inl (he ▸ hh)
      · obtain ⟨rfl, rfl⟩ := List.cons.inj he
        obtain ⟨ht, ha⟩ := List.forall_mem_cons.1 ha
        exact .inr ⟨ht.symm.imp_left Eq.symm, a, b, rfl, ha, hh⟩

theorem items_ne_nil (h : re ≠ []) : items re ≠ [] := by
  unfold items
  split <;> simp at h ⊢

theorem matchhere_iff (re : List Char) : ∀ text, matchhere re text = true ↔ Here (items re) text := by
  fun_induction items re with
  | case1 => exact fun text => iff_of_true (by rw [matchhere]) (here_nil text)
  | case2 c re ih =>
    intro text
    have hcons : items re ≠ [] ∨ Item.many c ≠ .one '$' := .inr nofun
    rw [matchhere, matchstar_iff ih, here_cons hcons]
    rfl
  | case3 c re hstar ih =>
    intro text
    by_cases he : c = '$' ∧ re = []
    · obtain ⟨rfl, rfl⟩ := he
      rw [matchhere, List.isEmpty_iff]
      exact here_end.symm
    · have hend : c = '$' → re = [] → False := fun hc hre => he ⟨hc, hre⟩
      have hcons : items re ≠ [] ∨ Item.one c ≠ .one '$' := by
        by_cases hre : re = []
        · exact .inr fun h => he ⟨Item.one.inj h, hre⟩
        · exact .inl (items_ne_nil hre)
      rw [here_cons hcons]
      cases text with
      | nil =>
        rw [matchhere.eq_4 c re hstar hend]
        refine iff_of_false nofun ?_
        rintro ⟨a, b, hab, ⟨x, -, rfl⟩, -⟩
        cases hab
      | cons t text =>
        rw [matchhere.eq_5 c re t text hstar hend, Bool.and_eq_true, ih, Bool.or_eq_true, beq_iff_eq, beq_iff_eq]
        constructor
        · rintro ⟨hc, hh⟩
          exact ⟨[t], text, rfl, ⟨t, hc, rfl⟩, hh⟩
        · rintro ⟨a, b, hab, ⟨x, hx, rfl⟩, hh⟩
          obtain ⟨rfl, rfl⟩ := List.cons.inj hab
          exact ⟨hx, hh⟩

theorem matchany_iff (text : List Char) : matchany re text = true ↔ ∃ pre t, text = pre ++ t ∧ matchhere re t = true := by
  induction text with
  | nil =>
    constructor
    · exact fun h => ⟨[], [], rfl, h⟩
    · rintro ⟨pre, t, he, h⟩
      rwa [(List.nil_eq_append_iff.1 he).2] at h
  | cons t text ih =>
    rw [matchany, Bool.or_eq_true, ih]
    constructor
    · rintro (h | ⟨pre, t', rfl, h⟩)
      · exact ⟨[], t :: text, rfl, h⟩
      · exact ⟨t :: pre, t', rfl, h⟩
    · rintro ⟨_ | ⟨x, pre⟩, t', he, h⟩
      · exact .inl (he ▸ h)
      · exact .inr ⟨pre, t', (List.cons.inj he).2, h⟩

/-- The matcher decides the language of its pattern. -/
theorem matchre_iff (re text : List Char) : matchre re text = true ↔ ∃ pre mid post, text = pre ++ (mid ++ post) ∧
    (re.head? = some '^' → pre = []) ∧ (Ends (body re) → post = []) ∧ mid ∈ lang (body re) := by
  by_cases h : ∃ re', re = '^' :: re'
  · obtain ⟨re, rfl⟩ := h
    rw [matchre, matchhere_iff]
    constructor
    · rintro ⟨mid, post, rfl, hpost, hmid⟩
      exact ⟨[], mid, post, rfl, fun _ => rfl, hpost, hmid⟩
    · rintro ⟨pre, mid, post, rfl, hpre, hpost, hmid⟩
      rw [hpre rfl]
      exact ⟨mid, post, rfl, hpost, hmid⟩
  · have hre : ∀ re', re = '^' :: re' → False := fun re' he => h ⟨re', he⟩
    have hhead : re.head? ≠ some '^' := fun he => h ⟨_, List.eq_cons_of_mem_head? he⟩
    rw [matchre.eq_2 re text hre, body.eq_2 re hre, matchany_iff]
    constructor
    · rintro ⟨pre, t, rfl, ht⟩
      obtain ⟨mid, post, rfl, hpost, hmid⟩ := (matchhere_iff re t).1 ht
      exact ⟨pre, mid, post, rfl, fun he => absurd he hhead, hpost, hmid⟩
    · rintro ⟨pre, mid, post, rfl, -, hpost, hmid⟩
      exact ⟨pre, mid ++ post, rfl, (matchhere_iff re _).2 ⟨mid, post, rfl, hpost, hmid⟩⟩

end Xv6.Grep
