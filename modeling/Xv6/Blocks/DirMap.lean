import Xv6.Blocks.Entries
import Xv6.Framework.Run

/-!
# Directories as maps

A directory stands for a finite map from the first `DIRSIZ` bytes of names to inode numbers. A run of
`dirlookup`, `dirlink` and removals of entries, with anything going on elsewhere, keeps the map that
its events tell (`mapOf`), and each call sees it: `directory_is_map`.
-/

namespace Xv6.Blocks

open Function

variable {fs fs' : Fs} {dp : Nat} {m : Name → Option Nat} {a b : Nat} {name : Name}

inductive DirOp where
  | lookup (name : Name)
  | link (name : Name) (inum : Nat)
  | remove (name : Name)
  /-- Something else happens, which leads to the state `fs'`. -/
  | elsewhere (fs' : Fs)

inductive DirEvent where
  | looked (name : Name) (r : Option (Nat × Nat))
  | linked (name : Name) (inum : Nat) (r : Int)
  | removed (name : Name) (ok : Bool)
  | panicked (p : Panic)
  deriving DecidableEq

/-- A call with its result; a panic ends it where it began. -/
def emit {α : Type} (f : α → DirEvent) (c : M α) (fs : Fs) : Option (Fs × List DirEvent) :=
  match c fs with
  | .ok (r, fs') => some (fs', [f r])
  | .error p => some (fs, [.panicked p])

def dirStep (dp : Nat) (fs : Fs) : DirOp → Option (Fs × List DirEvent)
  | .lookup name => emit (.looked name) (dirlookup dp name) fs
  | .link name inum => emit (.linked name inum) (dirlink dp name inum) fs
  | .remove name => emit (.removed name) (removeEntry dp name) fs
  | .elsewhere fs' => some (fs', [])

/-- Inode numbers are not 0 and less than `n`; what happens elsewhere leaves the directory alone. -/
def Inums (n dp : Nat) (fs : Fs) : DirOp → Prop
  | .link _ inum => 0 < inum ∧ inum < n
  | .elsewhere fs' => Own none fs' ∧ (fs'.itable dp).inode = (fs.itable dp).inode ∧ content fs' dp = content fs dp
  | _ => True

/-- What a call does to the map. -/
def mapAfter (m : Name → Option Nat) : DirEvent → Name → Option Nat
  | .linked name inum 0 => update m (key name) (some inum)
  | .removed name true => update m (key name) none
  | _ => m

def mapOf (m₀ : Name → Option Nat) (es : List DirEvent) : Name → Option Nat := es.foldl mapAfter m₀

/-- The entries stand for the map, with "." and ".." first. -/
structure Entries (ents : List Dirent) (m : Name → Option Nat) (a b : Nat) : Prop where
  stores : Stores (slots ents) m
  dot : slots ents 0 = some (key dot, a)
  dotdot : slots ents 1 = some (key dotdot, b)

theorem key_dot_ne : key dot ≠ key dotdot := by decide

theorem slot_new (name : Name) {inum : Nat} (h0 : 0 < inum) (hlt : inum < 2 ^ 16) :
    Dirent.slot ⟨BitVec.ofNat 16 inum, key name⟩ = some (key name, inum) := by
  have hn : (BitVec.ofNat 16 inum).toNat = inum := by rw [BitVec.toNat_ofNat, Nat.mod_eq_of_lt hlt]
  have hne : BitVec.ofNat 16 inum ≠ 0 := by
    intro e
    rw [e] at hn
    exact absurd hn (Nat.ne_of_lt h0)
  rw [Dirent.slot, if_neg hne, key_key, hn]

namespace Entries

variable {ents : List Dirent} (h : Entries ents m a b)
include h

/-- An entry is put where there is none. -/
theorem link {j inum : Nat} (habsent : ∀ j v, slots ents j ≠ some (key name, v)) (hj : j ≤ ents.length)
    (hnone : slots ents j = none) (h0 : 0 < inum) (hlt : inum < 2 ^ 16) :
    Entries (putEnt ents j ⟨BitVec.ofNat 16 inum, key name⟩) (update m (key name) (some inum)) a b := by
  have hj0 : 0 ≠ j := by
    rintro rfl
    rw [h.dot] at hnone
    cases hnone
  have hj1 : 1 ≠ j := by
    rintro rfl
    rw [h.dotdot] at hnone
    cases hnone
  have hslots := slots_putEnt hj ⟨BitVec.ofNat 16 inum, key name⟩
  rw [slot_new name h0 hlt] at hslots
  constructor
  · rw [hslots]
    exact h.stores.insert hnone (h.stores.eq_none.2 habsent)
  · rw [hslots, update_of_ne hj0, h.dot]
  · rw [hslots, update_of_ne hj1, h.dotdot]

/-- An entry other than "." and ".." is erased. -/
theorem remove {j t : Nat} (hdot : key name ≠ key Blocks.dot) (hdotdot : key name ≠ key Blocks.dotdot)
    (hj : slots ents j = some (key name, t)) : Entries (putEnt ents j noEnt) (update m (key name) none) a b := by
  have hj0 : 0 ≠ j := by
    rintro rfl
    rw [h.dot] at hj
    exact hdot (Prod.mk.inj (Option.some.inj hj)).1.symm
  have hj1 : 1 ≠ j := by
    rintro rfl
    rw [h.dotdot] at hj
    exact hdotdot (Prod.mk.inj (Option.some.inj hj)).1.symm
  have hslots := slots_putEnt (Nat.le_of_lt (lt_of_slots hj)) noEnt
  have hnone : noEnt.slot = none := rfl
  rw [hnone] at hslots
  constructor
  · rw [hslots]
    exact h.stores.erase hj
  · rw [hslots, update_of_ne hj0, h.dot]
  · rw [hslots, update_of_ne hj1, h.dotdot]

/-- There is nothing after "." and ".." if the map has no other names. -/
theorem empty_iff : (∀ j ≥ 2, slots ents j = none) ↔ ∀ k, m k ≠ none → k = key Blocks.dot ∨ k = key Blocks.dotdot := by
  constructor
  · intro hnone k hk
    obtain ⟨v, hv⟩ := Option.ne_none_iff_exists'.1 hk
    obtain ⟨j, hj⟩ := (h.stores.eq_some k v).1 hv
    match j with
    | 0 =>
      rw [h.dot] at hj
      exact .inl (Prod.mk.inj (Option.some.inj hj)).1.symm
    | 1 =>
      rw [h.dotdot] at hj
      exact .inr (Prod.mk.inj (Option.some.inj hj)).1.symm
    | j + 2 =>
      rw [hnone (j + 2) (Nat.le_add_left ..)] at hj
      cases hj
  · intro hk j hj
    cases hs : slots ents j with
    | none => rfl
    | some x =>
      obtain ⟨k, v⟩ := x
      have hm := (h.stores.eq_some k v).2 ⟨j, hs⟩
      rcases hk k (by rw [hm]; nofun) with rfl | rfl
      · have := h.stores.inj hs h.dot
        omega
      · have := h.stores.inj hs h.dotdot
        omega

end Entries

/-- A call that does not panic, with the event of its result. -/
theorem emit_of_wp {α : Type} {f : α → DirEvent} {c : M α} {Q : α → Fs → Prop} {es : List DirEvent}
    (h : WP c (fun _ => False) Q fs) (he : emit f c fs = some (fs', es)) : ∃ r, es = [f r] ∧ Q r fs' := by
  obtain ⟨r, fs₁, hr, hq⟩ := h.total
  rw [emit, hr] at he
  cases he
  exact ⟨r, rfl, hq⟩

/-- The directory `dp` holds the map `m`. -/
structure HoldsMap (fs : Fs) (dp : Nat) (m : Name → Option Nat) (a b : Nat) (ents : List Dirent) : Prop where
  dir : IsDir fs dp ents
  entries : Entries ents m a b

theorem HoldsMap.step {ents : List Dirent} {op : DirOp} {es : List DirEvent} (h : HoldsMap fs dp m a b ents)
    (hc : Inums (2 ^ 16) dp fs op) (hs : dirStep dp fs op = some (fs', es)) :
    (∀ p, .panicked p ∉ es) ∧ ∃ ents', HoldsMap fs' dp (mapOf m es) a b ents' := by
  cases op with
  | lookup name =>
    obtain ⟨r, rfl, hr⟩ := emit_of_wp (h.dir.wp_dirlookup name) hs
    refine ⟨by simp, ents, ?_, h.entries⟩
    cases r with
    | none =>
      obtain ⟨rfl, -⟩ := hr
      exact h.dir
    | some r =>
      obtain ⟨rfl, -⟩ := hr
      exact h.dir.getRef r.1
  | link name inum =>
    obtain ⟨r, rfl, hr⟩ := emit_of_wp (h.dir.wp_dirlink name inum) hs
    refine ⟨by simp, ?_⟩
    cases hr with
    | present hj => exact ⟨ents, h.dir, h.entries⟩
    | full habsent hne _ hput =>
      have hdir := hput.dir
      rw [if_neg hne] at hdir
      exact ⟨ents, hdir.1, h.entries⟩
    | linked habsent hj hnone hput =>
      have hdir := hput.dir
      rw [if_pos rfl] at hdir
      exact ⟨_, hdir, h.entries.link habsent hj hnone hc.1 hc.2⟩
  | remove name =>
    obtain ⟨r, rfl, hr⟩ := emit_of_wp (h.dir.wp_removeEntry name) hs
    refine ⟨by simp, ?_⟩
    cases hr with
    | dots => exact ⟨ents, h.dir, h.entries⟩
    | absent => exact ⟨ents, h.dir, h.entries⟩
    | removed hdot hdotdot hj hdir => exact ⟨_, hdir, h.entries.remove hdot hdotdot hj⟩
  | elsewhere fs₁ =>
    cases hs
    obtain ⟨hown, hi, hcont⟩ := hc
    refine ⟨nofun, ents, ⟨hown, ?_, h.dir.names, hcont.trans h.dir.bytes⟩, h.entries⟩
    rw [hi]
    exact h.dir.inode

/-- What the calls do in a state where the directory holds the map `m`, with `ents` its entries. -/
structure Serves (fs : Fs) (dp : Nat) (m : Name → Option Nat) (ents : List Dirent) : Prop where
  /-- A name that is not there is not found. -/
  lookup_none : ∀ name, m (key name) = none → dirlookup dp name balloc fs = .ok (none, fs)
  /-- A name that is there is found, at the offset of its entry. -/
  lookup_some : ∀ name t, m (key name) = some t → ∃ j fs', slots ents j = some (key name, t) ∧
    dirlookup dp name balloc fs = .ok (some (t, direntSize * j), fs')
  /-- A name that is there is not linked again. -/
  link_present : ∀ name inum, m (key name) ≠ none → dirlink dp name inum fs = .ok (-1, fs)
  /-- A name that is not there is linked, if there is room. -/
  link_absent : ∀ name inum, m (key name) = none → ¬Full fs dp ents → ∃ fs', dirlink dp name inum fs = .ok (0, fs')
  /-- A name other than "." and ".." that is there can be removed. -/
  remove_present : ∀ name, m (key name) ≠ none → key name ≠ key dot → key name ≠ key dotdot →
    ∃ fs', removeEntry dp name fs = .ok (true, fs')
  empty : ∃ e, isdirempty dp balloc fs = .ok (e, fs) ∧ (e = true ↔ ∀ k, m k ≠ none → k = key dot ∨ k = key dotdot)

theorem HoldsMap.serves {ents : List Dirent} (h : HoldsMap fs dp m a b ents) : Serves fs dp m ents := by
  have hst := h.entries.stores
  refine ⟨fun name hm => ?_, fun name t hm => ?_, fun name inum hm => ?_, fun name inum hm hroom => ?_,
    fun name hm hdot hdotdot => ?_, ?_⟩
  · obtain ⟨r, fs', hr, hl⟩ := (h.dir.wp_dirlookup name).total
    cases r with
    | none => exact hl.1 ▸ hr
    | some r =>
      obtain ⟨-, j, -, hj⟩ := hl
      exact absurd hj (hst.eq_none.1 hm j r.1)
  · obtain ⟨r, fs', hr, hl⟩ := (h.dir.wp_dirlookup name).total
    obtain ⟨i, hi⟩ := (hst.eq_some _ _).1 hm
    cases r with
    | none => exact absurd hi (hl.2 i t)
    | some r =>
      obtain ⟨-, j, hoff, hj⟩ := hl
      obtain rfl := hst.inj hi hj
      rw [hi] at hj
      have ht : t = r.1 := (Prod.mk.inj (Option.some.inj hj)).2
      refine ⟨i, fs', hi, hr.trans ?_⟩
      rw [ht, ← hoff]
  · obtain ⟨r, fs', hr, hl⟩ := (h.dir.wp_dirlink name inum).total
    have habsent : ¬∀ j v, slots ents j ≠ some (key name, v) := fun hab => hm (hst.eq_none.2 hab)
    cases hl with
    | present => exact hr
    | full hab => exact absurd hab habsent
    | linked hab => exact absurd hab habsent
  · obtain ⟨r, fs', hr, hl⟩ := (h.dir.wp_dirlink name inum).total
    cases hl with
    | present hj => exact absurd hj (hst.eq_none.1 hm _ _)
    | full _ hne _ hput =>
      have hdir := hput.dir
      rw [if_neg hne] at hdir
      exact absurd hdir.2.2 hroom
    | linked => exact ⟨fs', hr⟩
  · obtain ⟨r, fs', hr, hl⟩ := (h.dir.wp_removeEntry name).total
    cases hl with
    | dots hd => exact absurd hd (not_or.2 ⟨hdot, hdotdot⟩)
    | absent hab => exact absurd (hst.eq_none.2 hab) hm
    | removed => exact ⟨fs', hr⟩
  · obtain ⟨e, fs', hr, rfl, he⟩ := h.dir.wp_isdirempty.total
    exact ⟨e, hr, he.trans h.entries.empty_iff⟩

/-- In every state that a run from a directory with "." and ".." reaches, the directory holds the map
of the names linked and not removed since, with "." and ".." where they were, the calls see that map,
and, while the inode table has room, none of them has panicked. -/
theorem directory_is_map {fs₀ : Fs} {m₀ : Name → Option Nat} {ents₀ : List Dirent} {es : List DirEvent}
    (h₀ : HoldsMap fs₀ dp m₀ a b ents₀) (h : Exec (dirStep dp) (Inums (2 ^ 16) dp) fs₀ es fs) :
    (∀ p, .panicked p ∉ es) ∧ ∃ ents, HoldsMap fs dp (mapOf m₀ es) a b ents ∧ Serves fs dp (mapOf m₀ es) ents := by
  have hinv : (∀ p, .panicked p ∉ es) ∧ ∃ ents, HoldsMap fs dp (mapOf m₀ es) a b ents := by
    refine h.invariant (I := fun es fs => (∀ p, .panicked p ∉ es) ∧ ∃ ents, HoldsMap fs dp (mapOf m₀ es) a b ents)
      ⟨nofun, ents₀, h₀⟩ ?_
    rintro es es' fs fs' op ⟨hp, ents, hm⟩ hc hs
    obtain ⟨hp', ents', hm'⟩ := hm.step hc hs
    refine ⟨fun p hmem => ?_, ents', ?_⟩
    · rcases List.mem_append.1 hmem with hmem | hmem
      · exact hp p hmem
      · exact hp' p hmem
    · rw [mapOf, List.foldl_append]
      exact hm'
  obtain ⟨hp, ents, hm⟩ := hinv
  exact ⟨hp, ents, hm, hm.serves⟩

/-- The entries of a new directory. -/
def dotEnts (a b : Nat) : List Dirent := [⟨BitVec.ofNat 16 a, key dot⟩, ⟨BitVec.ofNat 16 b, key dotdot⟩]

def dotMap (a b : Nat) : Name → Option Nat :=
  update (update (fun _ => none) (key dot) (some a)) (key dotdot) (some b)

theorem entries_dots (ha : 0 < a) (ha' : a < 2 ^ 16) (hb : 0 < b) (hb' : b < 2 ^ 16) :
    Entries (dotEnts a b) (dotMap a b) a b := by
  have h₁ : slots [⟨BitVec.ofNat 16 a, key dot⟩] = update (fun _ : Nat => none) 0 (some (key dot, a)) := by
    have hput := slots_putEnt (Nat.le_refl ([] : List Dirent).length) ⟨BitVec.ofNat 16 a, key dot⟩
    rw [slot_new dot ha ha'] at hput
    exact hput
  have h₂ : slots (dotEnts a b) = update (slots [⟨BitVec.ofNat 16 a, key dot⟩]) 1 (some (key dotdot, b)) := by
    have hput := slots_putEnt (Nat.le_refl [(⟨BitVec.ofNat 16 a, key dot⟩ : Dirent)].length)
      ⟨BitVec.ofNat 16 b, key dotdot⟩
    rw [slot_new dotdot hb hb'] at hput
    exact hput
  have hempty : Stores (fun _ : Nat => none) (fun _ : Name => (none : Option Nat)) := ⟨nofun, by simp⟩
  have hdot : Stores (slots [⟨BitVec.ofNat 16 a, key dot⟩]) (update (fun _ => none) (key dot) (some a)) := by
    rw [h₁]
    exact hempty.insert rfl rfl
  refine ⟨?_, ?_, ?_⟩
  · rw [h₂]
    exact hdot.insert rfl (update_of_ne key_dot_ne.symm ..)
  · rw [h₂, h₁]
    rfl
  · rw [h₂]
    rfl

/-- The root directory of `rootImage`, locked. -/
def rootLocked : Fs :=
  match runCalls [.iget ROOTINO, .ilock ROOTINO] rootImage with
  | .ok (_, fs) => fs
  | .error _ => rootImage

theorem rootLocked_holdsMap : HoldsMap rootLocked ROOTINO (dotMap 1 1) 1 1 (dotEnts 1 1) := by
  have hok : (match runCalls [.iget ROOTINO, .ilock ROOTINO] rootImage with
      | .ok _ => true
      | .error _ => false) = true := by
    decide +kernel
  have hown : Own none rootLocked := by
    rw [rootLocked]
    split
    · rename_i u fs hr
      exact (Keeps.runCalls _ rootImage rootImage_wellFormed.own).ok hr
    · rename_i p hr
      rw [hr] at hok
      cases hok
  have hinode : ((rootLocked.itable ROOTINO).inode.any fun ip => ip.type = T_DIR) = true := by decide +kernel
  obtain ⟨ip, hi, ht⟩ := (Option.any_eq_true _ _).1 hinode
  refine ⟨⟨hown, ⟨ip, hi, of_decide_eq_true ht⟩, by decide, by decide +kernel⟩, entries_dots ?_ ?_ ?_ ?_⟩ <;> decide

/-- The calls that `Inums` allows, without anything elsewhere. -/
def inumsOk (n : Nat) (_ : Fs) : DirOp → Bool
  | .link _ inum => 0 < inum ∧ inum < n
  | .elsewhere _ => false
  | _ => true

theorem inums_of_ok {n : Nat} (fs : Fs) (op : DirOp) (h : inumsOk n fs op = true) : Inums n dp fs op := by
  cases op with
  | link name inum =>
    have hn : 0 < inum ∧ inum < n := of_decide_eq_true h
    exact hn
  | elsewhere fs' => cases h
  | lookup | remove => trivial

/-- A name of 16 bytes is the same as its first 14; the place of a removed entry is used again. -/
def linkRun : List DirOp :=
  [.link (List.replicate 16 97) 5, .link (List.replicate 14 97) 6, .link [98] 7, .remove [98], .link [99] 8]

def linkEvents : List DirEvent :=
  [.linked (List.replicate 16 97) 5 0, .linked (List.replicate 14 97) 6 (-1), .linked [98] 7 0, .removed [98] true,
    .linked [99] 8 0]

theorem linkRun_ends : ∃ fs, Exec (dirStep ROOTINO) (Inums (2 ^ 16) ROOTINO) rootLocked linkEvents fs := by
  obtain ⟨_, fs, hx, rfl⟩ : ∃ es fs, Exec (dirStep ROOTINO) (Inums (2 ^ 16) ROOTINO) rootLocked es fs ∧ es = linkEvents :=
    exists_exec inums_of_ok linkRun (by decide +kernel)
  exact ⟨fs, hx⟩

theorem directory_is_map_linkRun : ∃ fs ents, Exec (dirStep ROOTINO) (Inums (2 ^ 16) ROOTINO) rootLocked linkEvents fs ∧
    mapOf (dotMap 1 1) linkEvents (key (List.replicate 15 97)) = some 5 ∧
    mapOf (dotMap 1 1) linkEvents (key [98]) = none ∧ mapOf (dotMap 1 1) linkEvents (key [99]) = some 8 ∧
    Serves fs ROOTINO (mapOf (dotMap 1 1) linkEvents) ents := by
  obtain ⟨fs, h⟩ := linkRun_ends
  obtain ⟨-, ents, -, hs⟩ := directory_is_map rootLocked_holdsMap h
  exact ⟨fs, ents, h, by decide, by decide, by decide, hs⟩

/-- An inode number of more than 16 bits is cut off: the name is linked, and not found. -/
theorem directory_cuts : HoldsMap rootLocked ROOTINO (dotMap 1 1) 1 1 (dotEnts 1 1) ∧
    ∃ fs, Exec (dirStep ROOTINO) (Inums (2 ^ 32) ROOTINO) rootLocked [.linked [97] 65536 0, .looked [97] none] fs ∧
      mapOf (dotMap 1 1) [.linked [97] 65536 0] (key [97]) = some 65536 := by
  refine ⟨rootLocked_holdsMap, ?_⟩
  obtain ⟨_, fs, hx, rfl⟩ : ∃ es fs, Exec (dirStep ROOTINO) (Inums (2 ^ 32) ROOTINO) rootLocked es fs ∧
      es = [.linked [97] 65536 0, .looked [97] none] :=
    exists_exec inums_of_ok [.link [97] 65536, .lookup [97]] (by decide +kernel)
  exact ⟨fs, hx, by decide⟩

end Xv6.Blocks
