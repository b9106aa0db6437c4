import Xv6.Blocks.Files

/-!
# Freeing an inode

`wp_iput_freed`: `iput` of the last reference to an inode without links leaves its type, size and
addresses 0 on disk and changes nothing else but the free map.
-/

namespace Xv6.Blocks

open Function

variable {s s' : Fs} {i : Nat} {ip : Dinode}

/-- The state after `iput` has freed the inode `i`, which was `ip`. -/
structure InodeFreed (i : Nat) (ip : Dinode) (s s' : Fs) : Prop where
  sb : s'.sb = s.sb
  data : s'.data = s.data
  itable : ∀ j, j ≠ i → s'.itable j = s.itable j
  dinode : ∀ j, j ≠ i → s'.dinode j = s.dinode j
  entry : s'.itable i = ⟨0, none⟩
  inode : ∃ addrs, (∀ k, k ≤ NDIRECT → addrs k = 0) ∧ s'.dinode i = { ip with type := 0, size := 0, addrs }

theorem wp_iput_freed {E : Panic → Prop} (hown : Own none s) (hi : (s.itable i).inode = some ip) (hn : ip.nlink = 0)
    (hr : (s.itable i).ref = 1) : WP (iput i) E (fun _ s' => InodeFreed i ip s s') s := by
  unfold iput
  refine .bind ?_
  unfold ifree
  refine .bind (.get ?_)
  dsimp only
  rw [hi]
  refine .ite (fun _ => .bind ?_) fun hc => absurd ⟨hr, hn⟩ hc
  refine (wp_itrunc hown hi).mono fun _ s₁ ⟨_, hT, hsize⟩ => ?_
  obtain ⟨addrs, size, hi₁, hz⟩ := hT.inode
  rw [cur_of_inode hi₁] at hsize
  refine .bind (wp_inode_of hi₁ (.bind (wp_setInode ?_)))
  unfold iupdate
  refine .bind (wp_inode_of (inode_setInode ..) (.modify (.modify ?_)))
  have href : ((s₁.setInode i { ip with type := 0, addrs, size }).itable i).ref = 1 := by
    rw [ref_setInode, hT.ref, hr]
  refine ⟨hT.sb, hT.data, fun j hj => ?_, fun j hj => ?_, ?_, addrs, fun k hk => hz k (Nat.lt_succ_of_le hk), ?_⟩
  · exact (update_of_ne hj ..).trans ((update_of_ne hj ..).trans (hT.itable j hj))
  · exact (update_of_ne hj ..).trans (hT.dinode j hj)
  · refine (update_self ..).trans ?_
    exact if_pos href
  · refine (update_self ..).trans ?_
    rw [← hsize]

section InodeFreed

variable (h : InodeFreed i ip s s')

include h

theorem InodeFreed.addrOf_self {x : Slot} (hx : x.inum = i) : addrOf s' x = 0 := by
  obtain ⟨addrs, -, hd⟩ := h.inode
  have ht : (cur s' x.inum).type = 0 := by
    rw [hx, cur, h.entry]
    exact congrArg Dinode.type hd
  rw [addrOf]
  cases x <;> simp only [inodeAddr, ht, ne_eq, not_true_eq_false, false_and, if_false]

theorem InodeFreed.addrOf_ne {x : Slot} (hx : x.inum ≠ i) : addrOf s' x = addrOf s x := by
  rw [addrOf, addrOf, cur, cur, h.itable _ hx, h.dinode _ hx, h.data]

/-- The blocks of the inode are not in use any more. -/
theorem InodeFreed.used_slot (hs : Own none s) (hs' : Own none s') {x : Slot} (hx : x.inum = i)
    (hne : addrOf s x ≠ 0) : s'.used (addrOf s x) = false := by
  obtain ⟨hlo, hhi⟩ := hs.owned.range x hne
  cases hu : s'.used (addrOf s x) with
  | false => rfl
  | true =>
    obtain ⟨y, hy⟩ := hs'.owned.only _ (by rw [h.sb]; exact hlo) (by rw [h.sb]; exact hhi) hu
    have hyi : y.inum ≠ i := fun e => hne (by rw [← hy, h.addrOf_self e])
    rw [h.addrOf_ne hyi] at hy
    exact absurd hx (hs.owned.inj y x (by rw [hy]; exact hne) hy ▸ hyi)

/-- All other blocks are as before. -/
theorem InodeFreed.used_ne (hs : Own none s) (hs' : Own none s') {b : Nat} (hb : b < s.sb.size)
    (hx : ∀ x : Slot, x.inum = i → addrOf s x = b → b = 0) : s'.used b = s.used b := by
  rcases Nat.lt_or_ge b s.sb.datastart with hmeta | hdata
  · rw [hs.metadata b hmeta, hs'.metadata b (by rw [h.sb]; exact hmeta)]
  have hpos : 0 < b := Nat.lt_of_lt_of_le hs.owned.pos hdata
  cases hu : s.used b with
  | true =>
    obtain ⟨x, hxb⟩ := hs.owned.only b hdata hb hu
    have hxi : x.inum ≠ i := fun e => absurd (hx x e hxb) (by omega)
    have hsame := h.addrOf_ne hxi
    rw [← hxb, ← hsame]
    exact hs'.owned.marked x (by rw [hsame, hxb]; omega)
  | false =>
    cases hu' : s'.used b with
    | false => rfl
    | true =>
      obtain ⟨x, hxb⟩ := hs'.owned.only b (by rw [h.sb]; exact hdata) (by rw [h.sb]; exact hb) hu'
      have hxi : x.inum ≠ i := fun e => absurd (h.addrOf_self e) (by omega)
      rw [h.addrOf_ne hxi] at hxb
      rw [← hu, ← hxb, hs.owned.marked x (by omega)]

end InodeFreed

end Xv6.Blocks
