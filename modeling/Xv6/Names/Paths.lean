import Xv6.Names.Dangling
import Mathlib.Data.List.TakeWhile

/-!
# Path resolution

The elements of a path are the runs of bytes between its slashes (`elems_eq`). In a tree of names
without dangling entries (`Tree`), `namei` looks the elements up one after another, `nameiparent` stops
before the last one, and the reference that each returns is the only one that is left
(`path_resolution`).
-/

namespace Xv6.Names

open List

open Blocks

variable {n i j d cwd : Nat} {p : Pid} {b parent : Bool} {s s₁ : Fs} {R l : List Nat} {path name : Name}

/-! ## Path elements -/

/-- The runs of bytes other than slashes, each cut to `DIRSIZ` bytes. -/
def components (path : Name) : List Name := ((path.splitOn slash).filter (· ≠ [])).map (·.take DIRSIZ)

theorem components_slash (path : Name) : components (slash :: path) = components path := by
  simp [components, splitOn_eq_splitOnP, splitOnP_cons_eq_if_modifyHead]

theorem components_dropWhile (path : Name) : components (path.dropWhile (· = slash)) = components path := by
  induction path with
  | nil => rfl
  | cons x path ih =>
    by_cases hx : x = slash
    · rw [dropWhile_cons_of_pos (by simpa using hx), ih, hx, components_slash]
    · rw [dropWhile_cons_of_neg (by simpa using hx)]

theorem components_run {run : Name} (hne : run ≠ []) (hrun : ∀ x ∈ run, x ≠ slash) {rest : Name}
    (hrest : ∀ x ∈ rest.head?, x = slash) : components (run ++ rest) = run.take DIRSIZ :: components rest := by
  have hrun' : ∀ x ∈ run, (x == slash) = false := fun x hx => by simpa using hrun x hx
  cases rest with
  | nil =>
    rw [append_nil, components, splitOn_eq_splitOnP, splitOnP_eq_singleton hrun']
    simp [components, hne]
  | cons x rest =>
    obtain rfl := hrest x rfl
    rw [components, splitOn_eq_splitOnP, splitOnP_append_cons_of_forall_mem hrun' slash (by simp),
      components_slash]
    simp [components, splitOn_eq_splitOnP, hne]

theorem elems_eq {fuel : Nat} (h : path.length ≤ fuel) : elems fuel path = components path := by
  induction fuel generalizing path with
  | zero => rw [length_eq_zero_iff.1 (Nat.le_zero.1 h)]; rfl
  | succ fuel ih =>
    rw [elems, skipelem, ← components_dropWhile]
    have hle := (dropWhile_suffix (l := path) (· = slash)).length_le
    have hhead := head?_dropWhile_not (· = slash) path
    generalize path.dropWhile (· = slash) = t at hle hhead
    cases t with
    | nil => rfl
    | cons x t =>
      have hx : x ≠ slash := by simpa using hhead
      show _ :: elems fuel _ = _
      have hsplit := takeWhile_append_dropWhile (p := (· ≠ slash)) (l := x :: t)
      have hrest := head?_dropWhile_not (· ≠ slash) (x :: t)
      have hlen := congrArg length hsplit
      have hpos : (x :: t).takeWhile (· ≠ slash) ≠ [] := by simp [hx]
      have hlt := length_pos_iff.2 hpos
      have hle' := (dropWhile_suffix (l := (x :: t).dropWhile (· ≠ slash)) (· = slash)).length_le
      rw [length_append] at hlen
      rw [ih (by omega), components_dropWhile, ← components_run hpos, hsplit]
      · exact fun y hy => by simpa using mem_takeWhile_imp hy
      · intro y hy
        rw [Option.mem_def.1 hy] at hrest
        simpa using hrest

/-! ## Names in directories -/

/-- The inode that a name stands for in a directory. -/
def Fs.find (s : Fs) (i : Nat) (name : Name) : Option Nat :=
  if (s.inode i).type = .dir then (lookup name (s.inode i).ents 0).map Prod.fst else none

/-- Where a path begins. -/
def origin (cwd : Nat) (path : Name) : Nat := if path.head? = some slash then ROOTINO else cwd

/-- What the elements of a path lead to, one after another. -/
def resolve (s : Fs) (cwd : Nat) (path : Name) : Option Nat := (components path).foldlM s.find (origin cwd path)

/-- An inode in use that no `iput` frees: it has a link, or a process holds it. -/
def Stays (s : Fs) (i : Nat) : Prop := (s.inode i).type ≠ .free ∧ ((s.inode i).nlink = 0 → 0 < (s.itable i).ref)

/-- A tree of names without dangling entries, with no inode locked. -/
structure Tree (s : Fs) (cwd : Nat) : Prop where
  unlocked : ∀ i, (s.itable i).lock = none
  root : Stays s ROOTINO
  cwd : Stays s cwd
  named : ∀ d, (s.inode d).type = .dir → ∀ e ∈ (s.inode d).ents, e.inum ≠ 0 → Stays s e.inum.toNat

theorem Tree.lookup (h : Tree s cwd) (hd : (s.inode d).type = .dir) {r : Nat × Nat}
    (hr : lookup name (s.inode d).ents 0 = some r) : Stays s r.1 := by
  obtain ⟨e, -, he, hi, h0, -⟩ := lookup_eq_some hr
  rw [← hi]
  exact h.named d hd e (mem_of_getElem? he) h0

/-! ## References -/

/-- From `s` on the process has taken the references `R` and the locks of `l`. -/
structure Held (p : Pid) (s : Fs) (R l : List Nat) (s' : Fs) : Prop where
  inode : s'.inode = s.inode
  lock : ∀ i, (s'.itable i).lock = if i ∈ l then some p else none
  ref : ∀ i, (s'.itable i).ref = (s.itable i).ref + R.count i

abbrev Ends {α : Type} (n : Nat) (p : Pid) (b : Bool) (m : Code α) (s : Fs) (Q : α → Fs → Prop) : Prop :=
  (kernel n).Ends p b m s Q

theorem Tree.held (h : Tree s cwd) : Held p s [] [] s := ⟨rfl, h.unlocked, fun _ => rfl⟩

section

variable (h : Held p s R l s₁)
include h

theorem Held.set {R' l' : List Nat} {e : Entry} (hlock : e.lock = if i ∈ l' then some p else none)
    (href : e.ref = (s.itable i).ref + R'.count i) (hother : ∀ j, j ≠ i → (j ∈ l' ↔ j ∈ l) ∧ R'.count j = R.count j) :
    Held p s R' l' (s₁.setEntry i e) := by
  refine ⟨h.inode, fun j => ?_, fun j => ?_⟩ <;> by_cases hj : j = i
  · rw [hj, Fs.setEntry_self, hlock]
  · rw [Fs.setEntry_of_ne _ _ hj, h.lock]
    simp only [(hother j hj).1]
  · rw [hj, Fs.setEntry_self, href]
  · rw [Fs.setEntry_of_ne _ _ hj, h.ref, (hother j hj).2]

theorem Held.take {e : Entry} (hlock : e.lock = (s₁.itable i).lock) (href : e.ref = (s₁.itable i).ref + 1) :
    Held p s (i :: R) l (s₁.setEntry i e) := by
  refine h.set (hlock.trans (h.lock i)) ?_ fun j hj => ⟨.rfl, count_cons_of_ne (Ne.symm hj)⟩
  rw [href, h.ref, count_cons_self, Nat.add_assoc]

theorem Held.iget (i : Nat) : Ends n p b (perform (.iget i)) s₁ fun _ s₂ => Held p s (i :: R) l s₂ := by
  refine .perform rfl (h.take ?_ ?_) <;> unfold Entry.get <;> split <;> first | rfl | simp only; omega

theorem Held.idup (i : Nat) : Ends n p b (perform (.idup i)) s₁ fun _ s₂ => Held p s (i :: R) l s₂ :=
  .perform rfl (h.take rfl rfl)

theorem Held.ilock (hi : i ∈ R) (hl : i ∉ l) (ht : (s.inode i).type ≠ .free) :
    Ends n p b (perform (.ilock i)) s₁ fun _ s₂ => Held p s R (i :: l) s₂ := by
  have href := h.ref i
  have hpos := count_pos_iff.2 hi
  have hlock : (s₁.itable i).lock = none := (h.lock i).trans (if_neg hl)
  refine .perform (r := ()) (t := s₁.setEntry i { s₁.itable i with valid := true, lock := some p }) ?_
    (h.set (if_pos mem_cons_self).symm href fun j hj => ⟨by simp [hj], rfl⟩)
  simp only [kernel, exec, hlock, h.inode]
  rw [if_neg (by omega), if_neg (by simp), if_neg (by simp [ht])]

theorem Held.read (i : Nat) : Ends n p b (perform (.read i)) s₁ fun c s₂ => c = s.inode i ∧ Held p s R l s₂ :=
  .perform rfl ⟨congrFun h.inode i, h⟩

end

theorem Held.iunlock (h : Held p s R (i :: l) s₁) (hi : i ∈ R) (hl : i ∉ l) :
    Ends n p b (perform (.iunlock i)) s₁ fun _ s₂ => Held p s R l s₂ := by
  have href := h.ref i
  have hpos := count_pos_iff.2 hi
  have hlock : (s₁.itable i).lock = some p := (h.lock i).trans (if_pos mem_cons_self)
  refine .perform (r := ()) (t := s₁.setEntry i { s₁.itable i with lock := none }) ?_
    (h.set (if_neg hl).symm href fun j hj => ⟨by simp [hj], rfl⟩)
  simp only [kernel, exec, hlock]
  rw [if_neg (by simp; omega)]

/-- The inode stays: only the reference goes. -/
theorem Held.iput (h : Held p s (i :: R) l s₁) (hi : Stays s i) : Ends n p b (iput i) s₁ fun _ s₂ => Held p s R l s₂ := by
  have href := h.ref i
  rw [count_cons_self] at href
  have hdrop : Ends n p b (perform (.iput i)) s₁ fun r s₂ => r = false ∧ Held p s R l s₂ := by
    refine .perform (r := false) (t := s₁.setEntry i { s₁.itable i with ref := (s₁.itable i).ref - 1 }) ?_
      ⟨rfl, h.set (h.lock i) ?_ fun j hj => ⟨.rfl, (count_cons_of_ne (Ne.symm hj)).symm⟩⟩
    · simp only [kernel, exec, h.inode]
      rw [if_neg]
      rintro ⟨h1, -, h0⟩
      have := hi.2 h0
      omega
    · simp only
      omega
  refine .bind hdrop ?_
  rintro r s₂ ⟨hr, h₂⟩
  rw [hr]
  exact .ret h₂

theorem Held.iunlockput (h : Held p s (i :: R) (i :: l) s₁) (hl : i ∉ l) (hi : Stays s i) :
    Ends n p b (iunlockput i) s₁ fun _ s₂ => Held p s R l s₂ :=
  .bind (h.iunlock mem_cons_self hl) fun _ _ h => h.iput hi

theorem Held.swap (h : Held p s (i :: j :: R) l s₁) : Held p s (j :: i :: R) l s₁ :=
  ⟨h.inode, h.lock, fun k => (h.ref k).trans (congrArg _ ((List.Perm.swap j i R).count_eq k))⟩

theorem Held.dirlookup (h : Held p s R l s₁) (hd : (s.inode d).type = .dir) (name : Name) :
    Ends n p b (dirlookup d name) s₁ fun r s₂ => r = Names.lookup name (s.inode d).ents 0 ∧
      Held p s ((r.map Prod.fst).toList ++ R) l s₂ := by
  refine .bind (h.read d) fun c s₂ ⟨hc, h₂⟩ => ?_
  rw [hc, if_neg (not_not_intro hd)]
  cases hl : Names.lookup name (s.inode d).ents 0 with
  | none => exact .ret ⟨rfl, h₂⟩
  | some r => exact .bind (h₂.iget r.1) fun _ _ h₃ => .ret ⟨rfl, h₃⟩

/-! ## The walk -/

/-- What `walk` returns. -/
def found (s : Fs) (parent : Bool) (i : Nat) : List Name → Option (Nat × Name)
  | [] => if parent then none else some (i, [])
  | name :: rest =>
    if (s.inode i).type = .dir then
      if parent ∧ rest = [] then some (i, name)
      else (lookup name (s.inode i).ents 0).bind fun r => found s parent r.1 rest
    else none

theorem Held.walk (ht : Tree s cwd) (hi : Stays s i) (h : Held p s [i] [] s₁) (names : List Name) :
    Ends n p b (walk parent i names) s₁ fun r s₂ => r = found s parent i names ∧
      Held p s (r.map Prod.fst).toList [] s₂ := by
  induction names generalizing i s₁ with
  | nil =>
    cases parent with
    | true => exact .bind (h.iput hi) fun _ _ h => .ret ⟨rfl, h⟩
    | false => exact .ret ⟨rfl, h⟩
  | cons name rest ih =>
    refine .bind (h.ilock mem_cons_self not_mem_nil hi.1) fun _ s₂ h₂ => .bind (h₂.read i) fun c s₃ ⟨hc, h₃⟩ => ?_
    rw [hc, found]
    by_cases hd : (s.inode i).type = .dir
    · rw [if_neg (not_not_intro hd), if_pos hd]
      by_cases hlast : parent ∧ rest = []
      · rw [if_pos hlast, if_pos hlast]
        exact .bind (h₃.iunlock mem_cons_self not_mem_nil) fun _ _ h => .ret ⟨rfl, h⟩
      · rw [if_neg hlast, if_neg hlast]
        refine .bind (h₃.dirlookup hd name) fun r s₄ ⟨hr, h₄⟩ => ?_
        rw [← hr]
        cases r with
        | none => exact .bind (h₄.iunlockput not_mem_nil hi) fun _ _ h => .ret ⟨rfl, h⟩
        | some r => exact .bind (Held.iunlockput h₄.swap not_mem_nil hi) fun _ _ h => ih (ht.lookup hd hr.symm) h
    · rw [if_pos hd, if_neg hd]
      exact .bind (h₃.iunlockput not_mem_nil hi) fun _ _ h => .ret ⟨rfl, h⟩

theorem Tree.namex (ht : Tree s cwd) (parent : Bool) (path : Name) : Ends n p b (namex cwd path parent) s fun r s₂ =>
    r = found s parent (origin cwd path) (components path) ∧ Held p s (r.map Prod.fst).toList [] s₂ := by
  unfold Names.namex origin
  rw [elems_eq (Nat.le_refl _)]
  split
  · exact .bind (ht.held.iget ROOTINO) fun _ _ h => h.walk ht ht.root _
  · exact .bind (ht.held.idup cwd) fun _ _ h => h.walk ht ht.cwd _

theorem found_eq_fold (i : Nat) (names : List Name) : (found s false i names).map Prod.fst = names.foldlM s.find i := by
  induction names generalizing i with
  | nil => rfl
  | cons name rest ih =>
    rw [found, foldlM_cons, Fs.find]
    split
    · cases lookup name (s.inode i).ents 0 with
      | none => rfl
      | some r => exact ih r.1
    · rfl

theorem found_parent (i : Nat) (names : List Name) (name : Name) : found s true i (names ++ [name]) =
    (names.foldlM s.find i).bind fun d => if (s.inode d).type = .dir then some (d, name) else none := by
  induction names generalizing i with
  | nil => simp [found]
  | cons x rest ih =>
    rw [cons_append, found, foldlM_cons, Fs.find, if_neg (by simp : ¬(_ ∧ rest ++ [name] = []))]
    split
    · cases lookup x (s.inode i).ents 0 with
      | none => rfl
      | some r => exact ih r.1
    · rfl

/-- The state after a path has been resolved: one more reference to what is returned, if anything. -/
structure Resolved (s s' : Fs) (r : Option Nat) : Prop where
  inode : s'.inode = s.inode
  unlocked : ∀ i, (s'.itable i).lock = none
  ref : ∀ i, (s'.itable i).ref = (s.itable i).ref + if r = some i then 1 else 0

theorem Held.resolved {r : Option Nat} (h : Held p s r.toList [] s₁) : Resolved s s₁ r := by
  refine ⟨h.inode, h.lock, fun i => (h.ref i).trans ?_⟩
  cases r <;> simp [count_singleton]

/-- While the inode table has room: the elements are the runs between slashes; `namei` is a fold over them;
`nameiparent` fails exactly if there is none or those before the last one do not lead to a directory; and
`namei` looks the last one up there. -/
theorem path_resolution (ht : Tree s cwd) (n : Nat) (p : Pid) (b : Bool) (path : Name) :
    elems path.length path = components path ∧
    (∃ s', (kernel n).alone p b (namei cwd path) s = some (.ok (resolve s cwd path, s')) ∧
      Resolved s s' (resolve s cwd path)) ∧
    ∃ r s', (kernel n).alone p b (nameiparent cwd path) s = some (.ok (r, s')) ∧ Resolved s s' (r.map Prod.fst) ∧
      (∀ d name, r = some (d, name) ↔ ∃ names, components path = names ++ [name] ∧
        names.foldlM s.find (origin cwd path) = some d ∧ (s.inode d).type = .dir) ∧
      (components path ≠ [] → resolve s cwd path = r.bind fun x => (lookup x.2 (s.inode x.1).ents 0).map Prod.fst) := by
  refine ⟨elems_eq (Nat.le_refl _), ?_, ?_⟩
  · obtain ⟨r, s', hrun, hr, h⟩ := ht.namex (n := n) (p := p) (b := b) false path
    have hres : r.map Prod.fst = resolve s cwd path := by rw [hr, found_eq_fold, resolve]
    refine ⟨s', ?_, by rw [← hres]; exact h.resolved⟩
    rw [namei, Kernel.alone_bind hrun, ← hres]
    cases r <;> rfl
  · obtain ⟨r, s', hrun, hr, h⟩ := ht.namex (n := n) (p := p) (b := b) true path
    refine ⟨r, s', hrun, h.resolved, fun d name => ?_, fun hne => ?_⟩
    · rw [hr]
      rcases List.eq_nil_or_concat (components path) with hnil | ⟨names, x, hnames⟩
      · simp [hnil, found]
      · rw [List.concat_eq_append] at hnames
        rw [hnames, found_parent]
        constructor
        · intro h
          obtain ⟨d', hfold, h⟩ := Option.bind_eq_some_iff.1 h
          split at h
          · cases h
            exact ⟨names, rfl, hfold, ‹_›⟩
          · cases h
        · rintro ⟨names', e, hfold, hd⟩
          obtain ⟨rfl, hx⟩ := List.append_inj' e rfl
          simp [hfold, hd, List.singleton_inj.1 hx]
    · rcases List.eq_nil_or_concat (components path) with hnil | ⟨names, x, hnames⟩
      · exact absurd hnil hne
      · rw [List.concat_eq_append] at hnames
        rw [hr, resolve, hnames, found_parent, List.foldlM_append]
        cases names.foldlM s.find (origin cwd path) with
        | none => rfl
        | some d =>
          simp only [List.foldlM_cons, List.foldlM_nil, Fs.find, Option.bind_eq_bind, Option.bind_some]
          split <;> simp

/-- A tree with the directory "/d", and in it the file "f". -/
def smallTree : Fs where
  inode
    | 1 => { rootDir with nlink := 2, ents := rootDir.ents ++ [⟨2, strncpy DIRSIZ [100]⟩] }
    | 2 => { rootDir with ents := [⟨2, strncpy DIRSIZ dot⟩, ⟨1, strncpy DIRSIZ dotdot⟩, ⟨3, strncpy DIRSIZ [102]⟩] }
    | 3 => { freshInode .file with nlink := 1 }
    | _ => freshInode .free
  itable _ := ⟨0, false, none⟩

theorem smallTree_tree : Tree smallTree 2 := by
  have hd : ∀ d, (smallTree.inode d).type = .dir → d = 1 ∨ d = 2 := by
    rintro (_ | _ | _ | _ | _) hd <;> first | cases hd; done | omega
  refine ⟨fun _ => rfl, by unfold Stays; decide, by unfold Stays; decide, fun d ht => ?_⟩
  unfold Stays
  rcases hd d ht with rfl | rfl <;> decide

/-- The path "..//d/f" from "/d": the file, to which there is a reference then. -/
theorem path_resolution_file : Tree smallTree 2 ∧ components [46, 46, 47, 47, 100, 47, 102] = [[46, 46], [100], [102]] ∧
    ∃ s', (kernel 200).alone 0 true (namei 2 [46, 46, 47, 47, 100, 47, 102]) smallTree = some (.ok (some 3, s')) ∧
      (s'.itable 3).ref = 1 := by
  have hres : resolve smallTree 2 [46, 46, 47, 47, 100, 47, 102] = some 3 := by decide +kernel
  obtain ⟨-, ⟨s', hrun, hs⟩, -⟩ := path_resolution smallTree_tree 200 0 true [46, 46, 47, 47, 100, 47, 102]
  rw [hres] at hrun hs
  exact ⟨smallTree_tree, by decide +kernel, s', hrun, hs.ref 3⟩

end Xv6.Names
