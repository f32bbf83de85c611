import Nexios.Vfs.Tmpfs

/-!
# Directories of the tmpfs

A directory keeps its entries in a list with the newest first. An entry stores what fits of a name
into 64 bytes, and a search compares the stored name with the whole of the one that it is given.

The specification is a map from names to vnodes for every directory, which changes by the calls
that answer 0: `create` and `mkdir` bind a name, `unlink` removes its binding.
-/

open List

namespace Nexios.Vfs

open Function (update)

/-- The bytes of a string before its NUL. -/
abbrev Name := { bytes : List Byte // 0 ∉ bytes }

def Name.stored (name : Name) : Name :=
  ⟨name.1.take 63, fun h => name.2 (List.mem_of_mem_take h)⟩

structure TmpfsEntry where
  name : Name
  fits : name.1.length ≤ 63
  vnode : ℕ
  /-- `vnode->mode & S_IFDIR` -/
  isDir : Bool

def findEntry (entries : List TmpfsEntry) (name : Name) : Option TmpfsEntry :=
  entries.find? fun e => e.name = name

def lookup (entries : List TmpfsEntry) (name : Name) : Option ℕ :=
  (findEntry entries name).map (·.vnode)

/-- The entries of the directories, by vnode. -/
abbrev Dirs := ℕ → List TmpfsEntry

namespace Dirs

variable (s : Dirs) (self : ℕ) (name : Name)

/-- The common body of `mkdir` and `create`. The pools may have no block for the entry or none for
the vnode; `vn` is the latter. A call that answers `VFS_INVALID` is `none`. -/
def make (isDir entry vnode : Bool) (vn : ℕ) : Option Dirs :=
  if (findEntry (s self) name).isSome then none
  else if !entry then none
  else if !vnode then none
  else
    let e := ⟨name.stored, List.length_take_le 63 name.1, vn, isDir⟩
    some (update (update s vn []) self (e :: s self))

def mkdir (entry vnode : Bool) (vn : ℕ) : Option Dirs := s.make self name true entry vnode vn

def create (entry vnode : Bool) (vn : ℕ) : Option Dirs := s.make self name false entry vnode vn

def unlink : Option Dirs :=
  (findEntry (s self) name).bind fun e =>
    if e.isDir ∧ ¬ (s e.vnode).isEmpty then none
    else some (update s self ((s self).eraseP fun e => e.name = name))

end Dirs

inductive DirCall where
  | create (self : ℕ) (name : Name) (entry vnode : Bool) (vn : ℕ)
  | mkdir (self : ℕ) (name : Name) (entry vnode : Bool) (vn : ℕ)
  | unlink (self : ℕ) (name : Name)

/-- The name of an entry that can be made is stored in full. -/
def DirCall.Fits : DirCall → Prop
  | .create _ name entry vnode _ | .mkdir _ name entry vnode _ =>
    name.1.length ≤ 63 ∨ ¬ (entry ∧ vnode)
  | .unlink _ _ => True

/-- The search finds the bindings of the map, and no stored name occurs twice. -/
def Matches (entries : List TmpfsEntry) (m : Name → Option ℕ) : Prop :=
  (∀ name, lookup entries name = m name) ∧ (entries.map (·.name)).Nodup

structure DirState where
  dirs : Dirs := fun _ => []
  spec : ℕ → Name → Option ℕ := fun _ _ => none

namespace DirState

variable (s : DirState)

def made (self : ℕ) (name : Name) (vn : ℕ) (dirs : Dirs) : DirState :=
  ⟨dirs, update (update s.spec vn fun _ => none) self (update (s.spec self) name (some vn))⟩

def next : DirCall → DirState
  | .create self name entry vnode vn =>
    (s.dirs.create self name entry vnode vn).elim s (s.made self name vn)
  | .mkdir self name entry vnode vn =>
    (s.dirs.mkdir self name entry vnode vn).elim s (s.made self name vn)
  | .unlink self name => (s.dirs.unlink self name).elim s fun dirs =>
    ⟨dirs, update s.spec self (update (s.spec self) name none)⟩

def Correct : Prop := ∀ self, Matches (s.dirs self) (s.spec self)

end DirState

/-! ## One directory -/

section Entries

variable {es : List TmpfsEntry} {m : Name → Option ℕ} {name : Name}

theorem findEntry_eq_none : findEntry es name = none ↔ name ∉ es.map (·.name) := by
  simp [findEntry]

/-- No stored name is as long as a name of 64 bytes. -/
theorem findEntry_long (hlong : 63 < name.1.length) : findEntry es name = none := by
  rw [findEntry_eq_none, mem_map]
  rintro ⟨e, -, rfl⟩
  exact absurd e.fits (by omega)

theorem findEntry_erase (hnd : (es.map (·.name)).Nodup) (n : Name) :
    findEntry (es.eraseP fun e => e.name = name) n = if n = name then none else findEntry es n := by
  induction es with
  | nil => simp [findEntry]
  | cons e es ih =>
    obtain ⟨hnew, hnd⟩ := nodup_cons.mp hnd
    by_cases he : e.name = name
    · subst he
      split_ifs with hn
      · simpa [findEntry, hn] using hnew
      · simp [findEntry, Ne.symm hn]
    · have ih := ih hnd
      unfold findEntry at ih ⊢
      rw [eraseP_cons_of_neg (by simpa using he), find?_cons, find?_cons, ih]
      by_cases hn : n = name
      · simp [hn, he]
      · simp [hn]

theorem Matches.nil : Matches [] fun _ => none := ⟨fun _ => rfl, nodup_nil⟩

theorem Matches.cons (h : Matches es m) {e : TmpfsEntry} (hnew : findEntry es e.name = none) :
    Matches (e :: es) (update m e.name (some e.vnode)) := by
  refine ⟨fun n => ?_, nodup_cons.mpr ⟨findEntry_eq_none.mp hnew, h.2⟩⟩
  rw [← funext h.1]
  by_cases hn : n = e.name
  · simp [lookup, findEntry, hn]
  · simp [lookup, findEntry, hn, Ne.symm hn]

theorem Matches.erase (h : Matches es m) (name : Name) :
    Matches (es.eraseP fun e => e.name = name) (update m name none) := by
  refine ⟨fun n => ?_, h.2.sublist (eraseP_sublist.map _)⟩
  rw [← funext h.1, lookup, findEntry_erase h.2]
  by_cases hn : n = name <;> simp [lookup, hn]

end Entries

/-! ## All directories -/

namespace DirState

variable {s : DirState} {self : ℕ} {name : Name} {isDir entry vnode : Bool} {vn : ℕ}

theorem Correct.update (h : s.Correct) {es : List TmpfsEntry} {m : Name → Option ℕ}
    (hself : Matches es m) (self : ℕ) :
    Correct ⟨Function.update s.dirs self es, Function.update s.spec self m⟩ := by
  intro d
  by_cases hd : d = self
  · simpa [hd] using hself
  · simpa [hd] using h d

theorem Correct.make (h : s.Correct) (hfit : name.1.length ≤ 63 ∨ ¬ (entry ∧ vnode)) :
    ((s.dirs.make self name isDir entry vnode vn).elim s (s.made self name vn)).Correct := by
  unfold Dirs.make
  split_ifs with hfound hentry hvnode
  case neg =>
    have hstored : name.stored = name :=
      Subtype.ext (take_of_length_le (hfit.resolve_right (by simp_all)))
    rw [Option.not_isSome_iff_eq_none, ← hstored] at hfound
    have hself := (h self).cons (e := ⟨_, length_take_le 63 name.1, vn, isDir⟩) hfound
    rw [show (⟨_, _, vn, isDir⟩ : TmpfsEntry).name = name from hstored] at hself
    exact (h.update .nil vn).update hself self
  all_goals exact h

theorem Correct.unlink (h : s.Correct) : (s.next (.unlink self name)).Correct := by
  simp only [next, Dirs.unlink]
  cases findEntry (s.dirs self) name with
  | none => exact h
  | some e =>
    simp only [Option.bind_some]
    split_ifs with hbusy
    · exact h
    · exact h.update ((h self).erase name) self

/-- A longer name is stored in part, and is not found afterwards. -/
theorem not_correct_made (hlong : 63 < name.1.length) (hentry : entry) (hvnode : vnode) :
    ¬ ((s.dirs.make self name isDir entry vnode vn).elim s (s.made self name vn)).Correct := by
  intro h
  have hbound := (h self).1 name
  simp [Dirs.make, lookup, findEntry_long hlong, hentry, hvnode, made] at hbound

theorem next_correct_iff (h : s.Correct) (a : DirCall) : (s.next a).Correct ↔ a.Fits := by
  cases a with
  | unlink => exact iff_of_true h.unlink trivial
  | create | mkdir =>
    refine ⟨fun hnext => ?_, h.make⟩
    by_contra hfit
    simp only [DirCall.Fits, not_or, not_not, Nat.not_le] at hfit
    exact not_correct_made hfit.1 hfit.2.1 hfit.2.2 hnext

/-- After calls whose names are stored in full the directories are the maps, and they are after one
more call if and only if its name is stored in full too. -/
theorem tmpfs_dir_correct_iff {calls : List DirCall}
    (h : Run (fun s a => some (s.next a)) (fun _ a => a.Fits) {} calls s) (a : DirCall) :
    s.Correct ∧ ((s.next a).Correct ↔ a.Fits) := by
  have hs : s.Correct := by
    refine h.invariant (fun s a t hs hfit ht => ?_) fun _ => .nil
    cases ht
    exact (next_correct_iff hs a).mpr hfit
  exact ⟨hs, next_correct_iff hs a⟩

theorem tmpfs_dir_correct_iff_nested :
    ∃ s, Run (fun s a => some (next s a)) (fun _ a => a.Fits) {}
      [.mkdir 0 ⟨[100], by decide⟩ true true 1, .create 1 ⟨[102], by decide⟩ true true 2] s ∧
      (s.next (.unlink 1 ⟨[102], by decide⟩)).Correct ∧
      s.dirs.unlink 0 ⟨[100], by decide⟩ = none := by
  have hdir : DirCall.Fits (.mkdir 0 ⟨[100], by decide⟩ true true 1) := .inl (by decide)
  have hfile : DirCall.Fits (.create 1 ⟨[102], by decide⟩ true true 2) := .inl (by decide)
  exact ⟨_, .cons hdir rfl (.single hfile rfl),
    (tmpfs_dir_correct_iff (.cons hdir rfl (.single hfile rfl)) _).2.mpr trivial, rfl⟩

/-- A name of 64 bytes is not found after `create`, so that it can be created again. -/
theorem long_name_created_twice :
    let name : Name := ⟨List.replicate 64 97, by decide⟩
    let s := next {} (.create 0 name true true 1)
    let t := s.next (.create 0 name true true 2)
    ¬ s.Correct ∧ s.spec 0 name = some 1 ∧ lookup (s.dirs 0) name = none ∧
      (t.dirs 0).map (·.name) = [name.stored, name.stored] :=
  ⟨not_correct_made (s := {}) (by decide) rfl rfl, by decide, by decide, by decide⟩

end DirState

end Nexios.Vfs
