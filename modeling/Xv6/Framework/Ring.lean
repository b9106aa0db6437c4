import Mathlib.Data.List.Nodup

/-!
# Doubly linked rings

Nodes with a `next` and a `prev` link that form a ring through a head `h`: `Ring d h l` says
that the links lead from `h` through the nodes of `l`, in this order, back to `h`, and the
same way in the other direction. The two edits are `Dll.unlink` and `Dll.pushFront`, in the
order of assignments that C code makes, and `Dll.find` is the loop that follows the links from
the head until it finds a node or is back.

* `Ring.unlink`, `Ring.pushFront`: the list after an edit;
* `Ring.find_next`, `Ring.find_prev`: the loop finds the first node of the list, in either
  direction.
-/

namespace Xv6

open Function List

variable {α : Type}

structure Dll (α : Type) where
  next : α → α
  prev : α → α

/-- `b->next->prev = b->prev; b->prev->next = b->next;` -/
def Dll.unlink [DecidableEq α] (d : Dll α) (b : α) : Dll α :=
  let d : Dll α := { d with prev := update d.prev (d.next b) (d.prev b) }
  { d with next := update d.next (d.prev b) (d.next b) }

/-- `b->next = h->next; b->prev = h; h->next->prev = b; h->next = b;` -/
def Dll.pushFront [DecidableEq α] (d : Dll α) (h b : α) : Dll α :=
  let d : Dll α := { d with next := update d.next b (d.next h) }
  let d : Dll α := { d with prev := update d.prev b h }
  let d : Dll α := { d with prev := update d.prev (d.next h) b }
  { d with next := update d.next h b }

/-- The loop that starts at a node and follows `next`, until it is at `h` or has found a node. -/
def Dll.find [DecidableEq α] (next : α → α) (h : α) (p : α → Bool) : Nat → α → Option α
  | 0, _ => none
  | k + 1, b => if b = h then none else if p b then some b else Dll.find next h p k (next b)

/-! ## Links -/

/-- Consecutive nodes of the list are linked both ways. -/
def Links (next prev : α → α) : List α → Prop
  | x :: y :: l => next x = y ∧ prev y = x ∧ Links next prev (y :: l)
  | _ => True

variable {next prev next' prev' : α → α} {h b x y : α} {l l₁ l₂ : List α}

theorem links_append : Links next prev (l₁ ++ x :: l₂) ↔ Links next prev (l₁ ++ [x]) ∧ Links next prev (x :: l₂) := by
  induction l₁ with
  | nil => simp only [nil_append, Links, true_and]
  | cons a l₁ ih =>
    cases l₁ with
    | nil => simp only [cons_append, nil_append, Links, and_true, and_assoc]
    | cons b l₁ =>
      simp only [cons_append, Links, and_assoc] at ih ⊢
      rw [ih]

theorem links_reverse : Links next prev l.reverse ↔ Links prev next l := by
  induction l with
  | nil => exact Iff.rfl
  | cons x l ih =>
    cases l with
    | nil => exact Iff.rfl
    | cons y l =>
      rw [reverse_cons, reverse_cons, append_assoc, singleton_append, links_append,
        ← reverse_cons, ih]
      simp only [Links, and_true]
      constructor
      · rintro ⟨h, h1, h2⟩
        exact ⟨h2, h1, h⟩
      · rintro ⟨h1, h2, h⟩
        exact ⟨h, h2, h1⟩

/-- The links of a list depend on `next` of all nodes but the last, and `prev` of all but the first. -/
theorem Links.congr (hl : Links next prev l) (hn : ∀ x ∈ l.dropLast, next' x = next x)
    (hp : ∀ x ∈ l.tail, prev' x = prev x) : Links next' prev' l := by
  induction l with
  | nil => trivial
  | cons x l ih =>
    cases l with
    | nil => trivial
    | cons y l =>
      obtain ⟨h1, h2, h3⟩ := hl
      refine ⟨(hn x mem_cons_self).trans h1, (hp y mem_cons_self).trans h2, ih h3 ?_ ?_⟩
      · exact fun z hz => hn z (mem_cons_of_mem _ hz)
      · exact fun z hz => hp z (mem_cons_of_mem _ hz)

/-! ## Rings -/

structure Ring (d : Dll α) (h : α) (l : List α) : Prop where
  links : Links d.next d.prev (h :: (l ++ [h]))
  nodup : (h :: l).Nodup

variable {d : Dll α}

theorem Ring.reverse (hr : Ring d h l) : Ring ⟨d.prev, d.next⟩ h l.reverse := by
  constructor
  · show Links d.prev d.next (h :: (l.reverse ++ [h]))
    have e : h :: (l.reverse ++ [h]) = (h :: (l ++ [h])).reverse := by simp
    rw [e, links_reverse]
    exact hr.links
  · have hn := hr.nodup
    rw [nodup_cons] at hn ⊢
    rw [mem_reverse, nodup_reverse]
    exact hn

theorem ring_nil (h : α) : Ring { next := fun _ => h, prev := fun _ => h } h [] :=
  ⟨⟨rfl, rfl, trivial⟩, nodup_singleton h⟩

theorem Ring.notMem (hr : Ring d h l) : h ∉ l := (nodup_cons.1 hr.nodup).1

/-- The nodes without the head at the start are distinct, with the head at the end too. -/
theorem Ring.nodup_end (hr : Ring d h l) : (l ++ [h]).Nodup := by
  rw [nodup_append]
  refine ⟨(nodup_cons.1 hr.nodup).2, nodup_singleton h, fun x hx y hy e => ?_⟩
  rw [e, mem_singleton.1 hy] at hx
  exact hr.notMem hx

variable [DecidableEq α]

theorem Ring.pushFront (hr : Ring d h l) (hb : b ∉ h :: l) : Ring (d.pushFront h b) h (b :: l) := by
  have hbh : b ≠ h := fun e => hb (e ▸ mem_cons_self)
  have hbl : b ∉ l ++ [h] := by
    intro hm
    rcases mem_append.1 hm with hm | hm
    · exact hb (mem_cons_of_mem _ hm)
    · exact hbh (mem_singleton.1 hm)
  have hend := hr.nodup_end
  have hl := hr.links
  refine ⟨?_, nodup_cons.2 ⟨?_, nodup_cons.2 ⟨?_, (nodup_cons.1 hr.nodup).2⟩⟩⟩
  · -- the node after the head, which is the head itself if the ring is empty
    obtain ⟨f, q, hf⟩ : ∃ f q, l ++ [h] = f :: q := exists_cons_of_ne_nil (by simp)
    rw [cons_append, hf]
    rw [hf] at hbl hend hl
    obtain ⟨h1, -, h3⟩ := hl
    have hbf : b ≠ f := fun e => hbl (e ▸ mem_cons_self)
    have hq : l = (f :: q).dropLast := by rw [← hf, dropLast_concat]
    refine ⟨?_, ?_, ?_, ?_, h3.congr (fun x hx => ?_) fun x hx => ?_⟩
    · exact update_self ..
    · simp only [Dll.pushFront, update_of_ne hbh.symm, h1, update_of_ne hbf, update_self]
    · simp only [Dll.pushFront, update_of_ne hbh, update_self, h1]
    · simp only [Dll.pushFront, update_of_ne hbh.symm, h1, update_self]
    · rw [← hq] at hx
      have hxh : x ≠ h := fun e => hr.notMem (e ▸ hx)
      have hxb : x ≠ b := fun e => hb (mem_cons_of_mem _ (e ▸ hx))
      simp only [Dll.pushFront, update_of_ne hxh, update_of_ne hxb]
    · have hxb : x ≠ b := fun e => hbl (mem_cons_of_mem _ (e ▸ hx))
      have hxf : x ≠ f := fun e => (nodup_cons.1 hend).1 (e ▸ hx)
      simp only [Dll.pushFront, update_of_ne hbh.symm, h1, update_of_ne hxf, update_of_ne hxb]
  · intro hm
    rcases mem_cons.1 hm with e | hm
    · exact hbh e.symm
    · exact hr.notMem hm
  · exact fun hm => hb (mem_cons_of_mem _ hm)

theorem Ring.unlink (hr : Ring d h (l₁ ++ b :: l₂)) : Ring (d.unlink b) h (l₁ ++ l₂) := by
  -- the nodes before and after `b`
  obtain ⟨p, a, hp⟩ : ∃ p a, h :: l₁ = p ++ [a] := by
    rcases eq_nil_or_concat (h :: l₁) with e | ⟨p, a, e⟩
    · cases e
    · exact ⟨p, a, by rw [e, concat_eq_append]⟩
  obtain ⟨c, q, hq⟩ : ∃ c q, l₂ ++ [h] = c :: q := exists_cons_of_ne_nil (by simp)
  have hl₂ : l₂ = (c :: q).dropLast := by rw [← hq, dropLast_concat]
  have hl₁ : l₁ = (p ++ [a]).tail := by rw [← hp, tail_cons]
  have hall : h :: (l₁ ++ b :: l₂ ++ [h]) = p ++ a :: b :: c :: q := by
    rw [append_assoc, cons_append, hq, ← cons_append, hp, append_assoc, singleton_append]
  have hnew : h :: (l₁ ++ l₂ ++ [h]) = p ++ a :: c :: q := by
    rw [append_assoc, hq, ← cons_append, hp, append_assoc, singleton_append]
  -- all of them are distinct, but for the head at both ends
  have hn := hr.nodup
  rw [← cons_append, hp, nodup_append, nodup_append] at hn
  obtain ⟨⟨hnp, -, hpa⟩, hnb, hdis⟩ := hn
  have hend := hr.nodup_end
  rw [append_assoc, cons_append, hq, nodup_append, nodup_cons] at hend
  obtain ⟨-, ⟨hbc, hnc⟩, hdis'⟩ := hend
  have hcb : c ≠ b := fun e => hbc (e ▸ mem_cons_self)
  have hl := hr.links
  rw [hall, links_append] at hl
  obtain ⟨hleft, h1, h2, h3, h4, hright⟩ := hl
  have hnext : (d.unlink b).next = update d.next a c := by
    simp only [Dll.unlink, h3, update_of_ne hcb.symm, h2]
  have hprev : (d.unlink b).prev = update d.prev c a := by
    simp only [Dll.unlink, h3, h2]
  refine ⟨?_, ?_⟩
  · rw [hnew, links_append, hnext, hprev]
    refine ⟨hleft.congr (fun x hx => ?_) fun x hx => ?_, update_self .., update_self ..,
      hright.congr (fun x hx => ?_) fun x hx => ?_⟩
    · rw [dropLast_concat] at hx
      exact update_of_ne (hpa x hx a (mem_singleton_self a)) ..
    · rw [← hl₁] at hx
      exact update_of_ne (hdis' x hx c (mem_cons_of_mem _ mem_cons_self)) ..
    · rw [← hl₂] at hx
      refine update_of_ne (Ne.symm (hdis a ?_ x (mem_cons_of_mem _ hx))) ..
      exact mem_append_right _ (mem_singleton_self a)
    · have hxc : x ≠ c := fun e => (nodup_cons.1 hnc).1 (e ▸ hx)
      exact update_of_ne hxc ..
  · have hsub : List.Sublist (h :: (l₁ ++ l₂)) (h :: (l₁ ++ b :: l₂)) :=
      ((sublist_cons_self b l₂).append_left l₁).cons_cons h
    exact hr.nodup.sublist hsub

/-- Nodes pushed one after another end up in reverse order. -/
theorem Ring.foldl_pushFront (hr : Ring d h l₁) (hn : (h :: (l ++ l₁)).Nodup) :
    Ring (l.foldl (fun d b => d.pushFront h b) d) h (l.reverse ++ l₁) := by
  induction l generalizing d l₁ with
  | nil => exact hr
  | cons b l ih =>
    have hmid : (h :: (l ++ b :: l₁)).Nodup := (perm_middle.cons h).nodup_iff.2 hn
    have hb : b ∉ h :: l₁ := by
      intro hm
      have hbl : (b :: h :: (l ++ l₁)).Nodup := (List.Perm.swap h b (l ++ l₁)).nodup_iff.2 hn
      refine (nodup_cons.1 hbl).1 ?_
      rcases mem_cons.1 hm with e | hm
      · rw [e]
        exact mem_cons_self
      · exact mem_cons_of_mem _ (mem_append_right _ hm)
    rw [foldl_cons, reverse_cons, append_assoc]
    exact ih (hr.pushFront hb) hmid

/-! ## The search loops -/

theorem links_find {p : α → Bool} (hl : Links next prev (x :: (l ++ [h]))) (hn : h ∉ l) :
    Dll.find next h p (l.length + 1) (next x) = l.find? p := by
  induction l generalizing x with
  | nil =>
    rw [hl.1, Dll.find, if_pos rfl]
    rfl
  | cons y l ih =>
    have hy : y ≠ h := fun e => hn (e ▸ mem_cons_self)
    rw [hl.1, length_cons, Dll.find, if_neg hy, find?_cons]
    cases p y with
    | true => rfl
    | false => exact ih hl.2.2 fun hm => hn (mem_cons_of_mem _ hm)

theorem Ring.find_next (hr : Ring d h l) (p : α → Bool) :
    Dll.find d.next h p (l.length + 1) (d.next h) = l.find? p := links_find hr.links hr.notMem

theorem Ring.find_prev (hr : Ring d h l) (p : α → Bool) :
    Dll.find d.prev h p (l.length + 1) (d.prev h) = l.reverse.find? p := by
  have := hr.reverse.find_next p
  rwa [length_reverse] at this

end Xv6
