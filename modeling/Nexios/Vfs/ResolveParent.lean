import Mathlib.Data.List.Basic

/-!
# The parent of a path

`resolve_parent` splits a path at its last slash, copies what stands before it into a buffer of
`MAX_PATH` bytes and resolves the copy. For a name in the root the copy is empty, and `resolve`
rejects the empty path.
-/

open List

namespace Nexios.Vfs

def maxPath : ℕ := 256

section

variable {V : Type*} (walk : List Char → Option V) (cwd : Option V)

/-- `resolve`; `walk` is what it does with a path that is not empty. -/
def resolve (path : List Char) : Option V := if path = [] then none else walk path

def lastSlash (path : List Char) : Option ℕ :=
  path.zipIdx.foldl (fun slash c => if c.1 = '/' then some c.2 else slash) none

/-- The string in `parent_buf`; `none` if its NUL is written behind the buffer. -/
def parentBuf (path : List Char) (parentLen : ℕ) : Option (List Char) :=
  if parentLen < maxPath then some (path.take (min parentLen (maxPath - 1))) else none

/-- The vnode and `out_name`; `cwd` stands for the directory of the task or the global root. -/
def resolveParent (path : List Char) : Option (Option V × List Char) :=
  match lastSlash path with
  | some slash =>
    (parentBuf path slash).map fun buf =>
      let name := path.drop (slash + 1)
      (if name = [] then none else resolve walk buf, name)
  | none => some (if path = [] then none else cwd, path)

variable {p name : List Char}

theorem foldl_slash_of_not_mem (h : '/' ∉ name) (k : ℕ) (slash : Option ℕ) :
    (name.zipIdx k).foldl (fun slash c => if c.1 = '/' then some c.2 else slash) slash = slash := by
  induction name generalizing k with
  | nil => rfl
  | cons c name ih =>
    obtain ⟨hc, hname⟩ := not_or.mp (mt mem_cons.mpr h)
    rw [zipIdx_cons, foldl_cons, if_neg (Ne.symm hc)]
    exact ih hname (k + 1)

theorem lastSlash_append (h : '/' ∉ name) : lastSlash (p ++ '/' :: name) = some p.length := by
  rw [lastSlash, zipIdx_append, foldl_append, zipIdx_cons, foldl_cons, if_pos rfl,
    foldl_slash_of_not_mem h, Nat.zero_add]

theorem parentBuf_append (hp : p.length < maxPath) (rest : List Char) :
    parentBuf (p ++ rest) p.length = some p := by
  rw [parentBuf, if_pos hp, Nat.min_eq_left (Nat.le_sub_one_of_lt hp), take_left]

/-- For a name behind a slash, `resolve_parent` gives the name and the vnode of what stands before
the slash, the root if that is empty, exactly if this fits into the buffer and is not empty (or the
root does not resolve either). -/
theorem resolveParent_eq_iff (hslash : '/' ∉ name) (hname : name ≠ []) :
    resolveParent walk cwd (p ++ '/' :: name) =
        some (resolve walk (if p = [] then ['/'] else p), name) ↔
      p.length < maxPath ∧ (p = [] → walk ['/'] = none) := by
  have hdrop : (p ++ '/' :: name).drop (p.length + 1) = name := by
    rw [List.drop_append, List.drop_eq_nil_of_le (Nat.le_succ _)]
    simp
  rw [resolveParent, lastSlash_append hslash]
  by_cases hp : p.length < maxPath
  · simp only [parentBuf_append hp, Option.map_some, hdrop, if_neg hname, hp, true_and,
      Option.some.injEq, Prod.mk.injEq, and_true]
    by_cases hempty : p = []
    · simp [hempty, resolve, eq_comm]
    · simp [hempty]
  · simp [parentBuf, hp]

end

theorem resolveParent_eq_tmp : resolveParent (fun path => some path) none ['t', '/', 'a'] =
    some (some ['t'], ['a']) :=
  (resolveParent_eq_iff (p := ['t']) (fun path => some path) none (by decide) (by decide)).mpr
    ⟨by decide, fun h => absurd h (by decide)⟩

/-- The parent of `/a` does not resolve although the root does, and a long parent does not fit. -/
theorem resolveParent_rejects_root :
    resolveParent (fun path => some path) none ['/', 'a'] = some (none, ['a']) ∧
      resolve (fun path => some path) ['/'] = some ['/'] ∧
      resolveParent (fun path => some path) none (List.replicate 256 'd' ++ ['/', 'a']) = none := by
  refine ⟨rfl, rfl, ?_⟩
  rw [resolveParent, lastSlash_append (by decide), List.length_replicate]
  rfl

end Nexios.Vfs
