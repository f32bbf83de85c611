import Nexios.Lib.Run

/-!
# Files of the tmpfs

A file keeps its bytes in 16 contiguous pages that the first write allocates and clears. Addresses
are 64-bit numbers relative to the start of these pages, so the memory below the pages has the
highest ones. `accesses` records the ranges that were copied or cleared, as start and length.

The specification is an array of bytes that are zero until they are written. The check of a write
against the capacity adds offset and count modulo `2 ^ 64`.
-/

namespace Nexios.Vfs

def tmpfsMaxFileSize : Word := 65536

def vfsInvalid : Word := -4

structure TmpfsFile where
  /-- `private_data`: the memory around the pages -/
  pages : Option (Word → Byte) := none
  size : Word := 0
  accesses : List (Word × Word) := []

structure ByteFile where
  bytes : ℕ → Byte := fun _ => 0
  size : ℕ := 0

namespace ByteFile

def read (f : ByteFile) (count offset : ℕ) : List Byte :=
  (List.range (min count (f.size - offset))).map fun i => f.bytes (offset + i)

def write (f : ByteFile) (buffer : ℕ → Byte) (count offset : ℕ) : ByteFile where
  bytes i := if offset ≤ i ∧ i < offset + count then buffer (i - offset) else f.bytes i
  size := max f.size (offset + count)

end ByteFile

def memcpy (mem : Word → Byte) (dst : Word) (buffer : ℕ → Byte) (count : Word) : Word → Byte :=
  fun a => if a - dst < count then buffer (a - dst).toNat else mem a

namespace TmpfsFile

variable (s : TmpfsFile)

def fileRead (count offset : Word) : TmpfsFile × List Byte :=
  if s.size ≤ offset then (s, [])
  else
    let avail := s.size - offset
    let count := if avail < count then avail else count
    match s.pages with
    | none => (s, [])
    | some mem => ({ s with accesses := (offset, count) :: s.accesses },
        (List.range count.toNat).map fun i => mem (offset + BitVec.ofNat 64 i))

/-- `found` is the memory around the pages that the PMM hands out, if it has any. -/
def ensurePages (found : Option (Word → Byte)) : Option (TmpfsFile × (Word → Byte)) :=
  match s.pages with
  | some mem => some (s, mem)
  | none => found.map fun mem =>
    ({ s with accesses := (0, tmpfsMaxFileSize) :: s.accesses },
      memcpy mem 0 (fun _ => 0) tmpfsMaxFileSize)

def fileWrite (found : Option (Word → Byte)) (buffer : ℕ → Byte) (count offset : Word) :
    TmpfsFile × Word :=
  let needed := offset + count
  if tmpfsMaxFileSize < needed then (s, vfsInvalid)
  else
    match s.ensurePages found with
    | none => (s, vfsInvalid)
    | some (s, mem) =>
      (⟨memcpy mem offset buffer count, if s.size < needed then needed else s.size,
        (offset, count) :: s.accesses⟩, count)

def Within : Prop := ∀ r ∈ s.accesses, ∀ i < r.2, r.1 + i < tmpfsMaxFileSize

/-- The file has the bytes and the size of the array. -/
structure Holds (f : ByteFile) : Prop where
  size : s.size.toNat = f.size
  bound : f.size ≤ 65536
  pages : ∀ mem, s.pages = some mem → ∀ i < 65536, mem (BitVec.ofNat 64 i) = f.bytes i
  fresh : s.pages = none → f = {}

end TmpfsFile

inductive Call where
  | read (count offset : Word)
  | write (found : Option (Word → Byte)) (buffer : ℕ → Byte) (count offset : Word)

/-- A file, and the array that the answers of all calls so far describe. -/
structure FileState where
  file : TmpfsFile := {}
  spec : ByteFile := {}

namespace FileState

variable (s : FileState)

def step : Call → Option FileState
  | .read count offset => some { s with file := (s.file.fileRead count offset).1 }
  | .write found buffer count offset =>
    let r := s.file.fileWrite found buffer count offset
    some ⟨r.1, if r.2 = vfsInvalid then s.spec else s.spec.write buffer r.2.toNat offset.toNat⟩

def Correct : Call → Prop
  | .read count offset =>
    let r := s.file.fileRead count offset
    r.2 = s.spec.read count.toNat offset.toNat ∧ r.1.Within
  | .write found buffer count offset =>
    let r := s.file.fileWrite found buffer count offset
    (r = (s.file, vfsInvalid) ∨
      r.2 = count ∧ r.1.Holds (s.spec.write buffer count.toNat offset.toNat)) ∧ r.1.Within

/-- The end of a write that passes the check is not computed modulo `2 ^ 64`. -/
def NoWrap : Call → Prop
  | .read _ _ => True
  | .write found _ count offset => offset.toNat + count.toNat < 2 ^ 64 ∨
    tmpfsMaxFileSize < offset + count ∨ s.file.pages = none ∧ found = none

end FileState

namespace TmpfsFile

variable {s : TmpfsFile} {f : ByteFile} {count offset : Word} {found : Option (Word → Byte)}

theorem Within.access (hw : s.Within) (hend : offset.toNat + count.toNat ≤ 65536) :
    ∀ r ∈ (offset, count) :: s.accesses, ∀ i < r.2, r.1 + i < tmpfsMaxFileSize := by
  refine List.forall_mem_cons.mpr ⟨fun i hi => ?_, hw⟩
  change offset + i < 65536#64
  bv_omega

variable (h : s.Holds f) (hw : s.Within)
include h hw

theorem Holds.fileRead (count offset : Word) :
    (s.fileRead count offset).2 = f.read count.toNat offset.toNat ∧
      (s.fileRead count offset).1.Within ∧ (s.fileRead count offset).1.Holds f := by
  have hsize := h.size
  have hbound := h.bound
  unfold TmpfsFile.fileRead ByteFile.read
  split_ifs with hoff
  · have hnone : f.size - offset.toNat = 0 := by bv_omega
    rw [hnone, Nat.min_zero]
    exact ⟨rfl, hw, h⟩
  have hcount : (if s.size - offset < count then s.size - offset else count).toNat =
      min count.toNat (f.size - offset.toNat) := by
    split_ifs <;> bv_omega
  cases hp : s.pages with
  | none =>
    have hzero := congrArg ByteFile.size (h.fresh hp)
    bv_omega
  | some mem =>
    refine ⟨?_, hw.access (by rw [hcount]; bv_omega), hsize, hbound,
      fun m hm => h.pages m (hp.trans hm), nofun⟩
    simp only [hcount]
    refine List.map_congr_left fun i hi => ?_
    rw [List.mem_range] at hi
    rw [← h.pages mem hp (offset.toNat + i) (by omega)]
    congr 1
    bv_omega

theorem Holds.ensurePages {u : TmpfsFile} {mem : Word → Byte}
    (hu : s.ensurePages found = some (u, mem)) :
    u.size.toNat = f.size ∧ u.Within ∧ ∀ i < 65536, mem (BitVec.ofNat 64 i) = f.bytes i := by
  unfold TmpfsFile.ensurePages at hu
  split at hu
  · next mem' hp =>
    cases hu
    exact ⟨h.size, hw, h.pages mem hp⟩
  rename_i hp
  obtain ⟨old, -, heq⟩ := Option.map_eq_some_iff.mp hu
  cases heq
  refine ⟨h.size, hw.access (by decide), fun i hi => ?_⟩
  rw [h.fresh hp]
  have hin : BitVec.ofNat 64 i - 0 < 65536#64 := by bv_omega
  exact if_pos hin

theorem Holds.fileWrite (buffer : ℕ → Byte)
    (hok : offset.toNat + count.toNat < 2 ^ 64 ∨ tmpfsMaxFileSize < offset + count ∨
      s.pages = none ∧ found = none) : (s.fileWrite found buffer count offset = (s, vfsInvalid) ∨
      count ≠ vfsInvalid ∧ (s.fileWrite found buffer count offset).2 = count ∧
      (s.fileWrite found buffer count offset).1.Holds (f.write buffer count.toNat offset.toNat)) ∧
    (s.fileWrite found buffer count offset).1.Within := by
  unfold TmpfsFile.fileWrite
  have hmax : tmpfsMaxFileSize = 65536#64 := rfl
  simp only
  split_ifs with hbig
  · exact ⟨.inl rfl, hw⟩
  cases hu : s.ensurePages found with
  | none => exact ⟨.inl rfl, hw⟩
  | some r =>
    obtain ⟨hsize, hw, hbytes⟩ := h.ensurePages hw hu
    have hend : offset.toNat + count.toNat ≤ 65536 := by
      rcases hok with hlt | hgt | ⟨hp, rfl⟩
      · bv_omega
      · exact absurd hgt hbig
      · simp [TmpfsFile.ensurePages, hp] at hu
    have hinv : vfsInvalid.toNat = 2 ^ 64 - 4 := rfl
    refine ⟨.inr ⟨by bv_omega, rfl, ⟨?_, Nat.max_le.mpr ⟨h.bound, hend⟩, ?_, nofun⟩⟩,
      hw.access hend⟩
    · change (if r.1.size < offset + count then offset + count else r.1.size).toNat = max f.size _
      split_ifs <;> bv_omega
    · rintro _ ⟨⟩ i hi
      simp only [memcpy, ByteFile.write, hbytes i hi]
      split_ifs
      all_goals first | rfl | bv_omega | (congr 1; bv_omega)

end TmpfsFile

namespace FileState

variable {s : FileState} {a : Call}

/-- A write that wraps and passes the check copies to the address just below the pages. -/
theorem noWrap_of_correct (h : s.Correct a) : s.NoWrap a := by
  cases a with
  | read _ _ => trivial
  | write found buffer count offset =>
    by_contra hwrap
    simp only [NoWrap, not_or, not_and] at hwrap
    obtain ⟨hsum, hbig, hpages⟩ := hwrap
    obtain ⟨u, hu⟩ : ∃ u, s.file.ensurePages found = some u := by
      unfold TmpfsFile.ensurePages
      cases hp : s.file.pages with
      | some mem => exact ⟨_, rfl⟩
      | none =>
        obtain ⟨mem, rfl⟩ := Option.ne_none_iff_exists'.mp (hpages hp)
        exact ⟨_, rfl⟩
    have hw := h.2
    rw [TmpfsFile.fileWrite] at hw
    simp only [if_neg hbig, hu] at hw
    have hlast := hw _ List.mem_cons_self (-1 - offset) (by change _ < count; bv_omega)
    bv_omega

theorem correct_of_noWrap (h : s.file.Holds s.spec ∧ s.file.Within) (hok : s.NoWrap a) :
    s.Correct a ∧ ∀ t, s.step a = some t → t.file.Holds t.spec ∧ t.file.Within := by
  cases a with
  | read count offset =>
    obtain ⟨hdata, hw, hh⟩ := h.1.fileRead h.2 count offset
    refine ⟨⟨hdata, hw⟩, ?_⟩
    rintro _ ⟨⟩
    exact ⟨hh, hw⟩
  | write found buffer count offset =>
    obtain ⟨hfail | ⟨hcount, hret, hh⟩, hw⟩ := h.1.fileWrite h.2 buffer hok
    · refine ⟨⟨.inl hfail, hw⟩, ?_⟩
      rintro _ ⟨⟩
      simpa [hfail] using h
    · refine ⟨⟨.inr ⟨hret, hh⟩, hw⟩, ?_⟩
      rintro _ ⟨⟩
      simpa [hret, hcount] using ⟨hh, hw⟩

/-- After calls that do not wrap, a call does what it does to an array of bytes, inside the pages,
if and only if it does not wrap. -/
theorem tmpfs_file_correct_iff {calls : List Call} (h : Run step NoWrap {} calls s) (a : Call) :
    s.Correct a ↔ s.NoWrap a := by
  refine ⟨noWrap_of_correct, fun hok => (correct_of_noWrap ?_ hok).1⟩
  apply h.invariant (fun s a t hs hok => (correct_of_noWrap hs hok).2 t)
  exact ⟨⟨rfl, Nat.zero_le _, nofun, fun _ => rfl⟩, nofun⟩

def behindHole : Call := .write (some fun _ => 7) (fun i => BitVec.ofNat 8 i + 5) 2 3

theorem tmpfs_file_correct_iff_hole :
    ∃ s, Run step NoWrap {} [behindHole] s ∧ s.Correct (.read 100 1) ∧
      (s.file.fileRead 100 1).2 = [0, 0, 5, 6] := by
  have hok : NoWrap {} behindHole := .inl (by decide)
  exact ⟨_, .single hok rfl, (tmpfs_file_correct_iff (.single hok rfl) _).mpr trivial,
    by decide +kernel⟩

/-- The end of the write wraps to 4096, and the page below the file is overwritten. -/
theorem write_below_pages :
    let r := ({} : TmpfsFile).fileWrite (some fun _ => 7) (fun _ => 1) 8192 (-4096)
    ¬ Correct {} (.write (some fun _ => 7) (fun _ => 1) 8192 (-4096)) ∧ r.2 = 8192 ∧
      ∃ mem, r.1.pages = some mem ∧ mem (-4096) = 1 := by
  refine ⟨fun h => ?_, by decide, _, rfl, by decide⟩
  rcases noWrap_of_correct h with hsum | hbig | hnone
  · exact absurd hsum (by decide)
  · exact absurd hbig (by decide)
  · cases hnone.2

end FileState

end Nexios.Vfs
