import Nexios.Lib.Run
import Mathlib.Data.List.Range

/-!
# Reading a FAT32 volume

The disk is a function from 64-bit sector numbers, undefined where a sector cannot be read. The
functions that need a buffer for a cluster of more than 4 KiB are told whether the pool has one.
-/

open List

namespace Nexios.Fat32

abbrev Lba := BitVec 64
abbrev Disk := Lba → Option (ℕ → Byte)

def le32 (s : ℕ → Byte) (i : ℕ) : ℕ :=
  (s i).toNat + 2 ^ 8 * (s (i + 1)).toNat + 2 ^ 16 * (s (i + 2)).toNat + 2 ^ 24 * (s (i + 3)).toNat

/-- A mounted partition; `parse_bpb` accepts 512 bytes a sector only. -/
structure Volume where
  partitionStart : ℕ
  reservedSectors : ℕ
  fatCount : ℕ
  fatSize : ℕ
  sectorsPerCluster : ℕ
  totalSectors : ℕ
  fats_pos : 0 < fatCount
  fats_lt : fatCount < 2 ^ 8
  size_lt : fatSize < 2 ^ 32
  cluster_pos : 0 < sectorsPerCluster
  cluster_lt : sectorsPerCluster < 2 ^ 8

def isEof (entry : ℕ) : Bool := 0x0FFFFFF8 ≤ entry
def isBad (entry : ℕ) : Bool := entry = 0x0FFFFFF7
def isFree (entry : ℕ) : Bool := entry = 0

namespace Volume

variable (v : Volume) (disk : Disk)

def clusterSize : ℕ := v.sectorsPerCluster * 512

/-- The `i`-th sector of the copies of the table. -/
def fatLba (i : ℕ) : Lba := .ofNat 64 (v.partitionStart + v.reservedSectors + i)

def clusterToLba (cluster : ℕ) : Lba :=
  v.fatLba (v.fatCount * v.fatSize) + (.ofNat 64 cluster - 2) * .ofNat 64 v.sectorsPerCluster

def readFatEntry (cluster : ℕ) : Option ℕ :=
  (disk (v.fatLba (cluster * 4 / 512))).map fun s => le32 s (cluster * 4 % 512) % 2 ^ 28

def readCluster (cluster : ℕ) : Option (ℕ → Byte) :=
  if ∀ i < v.sectorsPerCluster, (disk (v.clusterToLba cluster + .ofNat 64 i)).isSome then
    some fun k =>
      ((disk (v.clusterToLba cluster + .ofNat 64 (k / 512))).getD fun _ => 0) (k % 512)
  else none

/-! ## Directories -/

/-- The clusters of a directory, at most `max` of them. -/
def dirChain : ℕ → ℕ → Option (List ℕ)
  | 0, _ => some []
  | max + 1, current =>
    if isEof current then some []
    else if isBad current || isFree current then none
    else (v.readFatEntry disk current).bind fun next => (dirChain max next).map (current :: ·)

def entriesPerCluster : ℕ := v.clusterSize / 32

def totalEntries (dirCluster : ℕ) : ℕ :=
  ((v.dirChain disk 256 dirCluster).getD []).length * v.entriesPerCluster

/-- The bytes of the entry, if there is one, the position after it, and the depth of the calls;
`heap` is the answer of the pool in the call for a position. -/
def readDirEntry (heap : ℕ → Bool) (dirCluster pos : ℕ) : Option (ℕ → Byte) × ℕ × ℕ :=
  match v.dirChain disk 256 dirCluster with
  | none => (none, pos, 1)
  | some chain =>
    if v.totalEntries disk dirCluster ≤ pos then (none, pos, 1)
    else if 4096 < v.clusterSize && !heap pos then (none, pos, 1)
    else
      match v.readCluster disk (chain.getD (pos / v.entriesPerCluster) 0) with
      | none => (none, pos, 1)
      | some data =>
        let raw := fun k => data (pos % v.entriesPerCluster * 32 + k)
        if raw 0 = 0 then (none, pos, 1)
        else if raw 0 = 0xE5 ∨ raw 11 = 0x0F then
          let r := readDirEntry heap dirCluster (pos + 1)
          (r.1, r.2.1, r.2.2 + 1)
        else (some raw, pos + 1, 1)
termination_by v.totalEntries disk dirCluster - pos

/-- The entry at the position can be read, and is deleted or part of a long name. -/
def Skips (heap : ℕ → Bool) (dirCluster pos : ℕ) : Prop :=
  pos < v.totalEntries disk dirCluster ∧ (4096 < v.clusterSize → heap pos) ∧
    ∃ chain ∈ v.dirChain disk 256 dirCluster,
      ∃ data ∈ v.readCluster disk (chain.getD (pos / v.entriesPerCluster) 0),
        let raw := fun k => data (pos % v.entriesPerCluster * 32 + k)
        raw 0 ≠ 0 ∧ (raw 0 = 0xE5 ∨ raw 11 = 0x0F)

/-- The calls are nested as deeply as there are entries in a row that are skipped. -/
theorem lt_depth_readDirEntry_iff (heap : ℕ → Bool) (dirCluster pos c : ℕ) :
    c < (v.readDirEntry disk heap dirCluster pos).2.2 ↔
      ∀ k < c, v.Skips disk heap dirCluster (pos + k) := by
  have hstop : ∀ {p}, ¬ v.Skips disk heap dirCluster p → ∀ c,
      c < 1 ↔ ∀ k < c, v.Skips disk heap dirCluster (p + k) := by
    intro p hp c
    refine ⟨fun hc k hk => by omega, fun hall => ?_⟩
    by_contra hc
    exact hp (hall 0 (by omega))
  fun_induction readDirEntry generalizing c with
  | case6 pos chain hchain h hheap data hdata raw hzero hskip r ih =>
    have hskips : v.Skips disk heap dirCluster pos := by
      refine ⟨by omega, ?_, chain, hchain, data, hdata, hzero, hskip⟩
      simpa using hheap
    cases c with
    | zero => simp
    | succ c =>
      refine Nat.add_lt_add_iff_right.trans ((ih c).trans ?_)
      rw [← Nat.and_forall_add_one (p := fun k => k < c + 1 → _)]
      simp [hskips, Nat.add_comm, Nat.add_left_comm]
  | _ => exact hstop (by simp_all +zetaDelta [Skips]) c

end Volume

/-- One table of one sector, in front of clusters of `n` sectors. -/
def small (n : ℕ) (hn : 0 < n ∧ n < 2 ^ 8) : Volume :=
  ⟨0, 1, 1, 1, n, 6, by decide, by decide, by decide, hn.1, hn.2⟩

def oneSector : Volume := small 1 (by decide)

/-- A directory of one cluster that begins with `c` deleted entries. -/
def deleted (c : ℕ) : Disk :=
  fun lba => some fun i => if lba = 1 then 0xFF else if i < 32 * c then 0xE5 else 0

/-- Every one of them is a call inside the call for the entry before it. -/
theorem depth_deleted :
    (oneSector.readDirEntry (deleted 0) (fun _ => true) 2 0).2.2 = 1 ∧
    (oneSector.readDirEntry (deleted 16) (fun _ => true) 2 0).2.2 = 17 := by
  decide +kernel

/-! ## Files -/

namespace Volume

variable (v : Volume) (disk : Disk)

/-- The cluster `n` links on: `some none` past the end of the chain, `none` after an error. -/
def skipClusters : ℕ → ℕ → Option (Option ℕ)
  | 0, current => some current
  | n + 1, current =>
    match v.readFatEntry disk current with
    | none => none
    | some next =>
      if isEof next then some none
      else if isBad next then none
      else skipClusters n next

/-- The bytes of `count` positions from `clusterOff` on, and the clusters that were read. -/
def readClusters : ℕ → ℕ → ℕ → ℕ → Option (List Byte) × List ℕ
  | 0, _, _, _ => (none, [])
  | fuel + 1, current, clusterOff, count =>
    match v.readCluster disk current with
    | none => (none, [current])
    | some data =>
      let toRead := min (v.clusterSize - clusterOff) count
      let bytes := (range toRead).map fun k => data (clusterOff + k)
      if count ≤ toRead then (some bytes, [current])
      else
        match v.readFatEntry disk current with
        | none => (none, [current])
        | some next =>
          if isEof next then (some bytes, [current])
          else if isBad next then (none, [current])
          else
            let r := readClusters fuel next 0 (count - toRead)
            (r.1.map (bytes ++ ·), current :: r.2)

def readFile (heap : Bool) (firstCluster fileSize offset count : ℕ) :
    Option (List Byte) × List ℕ :=
  let count := min count (fileSize - offset)
  if fileSize ≤ offset ∨ count = 0 then (some [], [])
  else
    match v.skipClusters disk (offset / v.clusterSize) firstCluster with
    | none => (none, [])
    | some none => (some [], [])
    | some (some current) =>
      if 4096 < v.clusterSize && !heap then (none, [])
      else v.readClusters disk count current (offset % v.clusterSize) count

/-- The clusters of a file, each linked to the next and all of them readable. -/
inductive FileChain : ℕ → List ℕ → Prop
  | last {c : ℕ} (hread : (v.readCluster disk c).isSome) : FileChain c [c]
  | link {c next : ℕ} {l : List ℕ} (hread : (v.readCluster disk c).isSome)
      (hnext : v.readFatEntry disk c = some next) (hgo : isEof next = false ∧ isBad next = false)
      (h : FileChain next l) : FileChain c (c :: l)

/-- The byte at a position of the concatenated clusters. -/
def fileByte (chain : List ℕ) (p : ℕ) : Byte :=
  ((v.readCluster disk (chain.getD (p / v.clusterSize) 0)).getD fun _ => 0) (p % v.clusterSize)

variable {v disk} {c n off count : ℕ} {l : List ℕ}

theorem clusterSize_pos (v : Volume) : 0 < v.clusterSize := Nat.mul_pos v.cluster_pos (by decide)

theorem fileByte_drop (v : Volume) (disk : Disk) (l : List ℕ) (n p : ℕ) :
    v.fileByte disk (l.drop n) p = v.fileByte disk l (v.clusterSize * n + p) := by
  unfold fileByte
  rw [Nat.mul_add_div v.clusterSize_pos, Nat.mul_add_mod, getD_eq_getElem?_getD,
    getD_eq_getElem?_getD, getElem?_drop]

theorem FileChain.skip (h : v.FileChain disk c l) (hn : n < l.length) : ∃ c',
    v.skipClusters disk n c = some (some c') ∧ v.FileChain disk c' (l.drop n) := by
  induction n generalizing c l with
  | zero => exact ⟨c, rfl, h⟩
  | succ n ih =>
    cases h with
    | last => exact absurd hn (by simp)
    | link _ hnext hgo h =>
      rw [skipClusters, hnext]
      simp only [hgo, Bool.false_eq_true, if_false]
      exact ih h (Nat.lt_of_succ_lt_succ hn)

theorem FileChain.data (h : v.FileChain disk c l) :
    ∃ data, v.readCluster disk c = some data ∧ ∀ p < v.clusterSize, v.fileByte disk l p = data p := by
  have hsome : ∃ data, v.readCluster disk c = some data := by
    cases h <;> exact Option.isSome_iff_exists.mp ‹_›
  obtain ⟨data, hdata⟩ := hsome
  refine ⟨data, hdata, fun p hp => ?_⟩
  unfold fileByte
  rw [Nat.div_eq_of_lt hp, Nat.mod_eq_of_lt hp]
  cases h <;> simp [hdata]

theorem FileChain.read {fuel : ℕ} (h : v.FileChain disk c l) (hoff : off < v.clusterSize)
    (hcount : 0 < count) (hfuel : count ≤ fuel) (hl : off + count ≤ l.length * v.clusterSize) :
    (v.readClusters disk fuel c off count).1 =
        some ((range count).map fun k => v.fileByte disk l (off + k)) ∧
      (v.readClusters disk fuel c off count).2 ⊆ l := by
  induction fuel generalizing c l off count with
  | zero => omega
  | succ fuel ih =>
    obtain ⟨data, hdata, hbyte⟩ := h.data
    have hbytes : ∀ m ≤ v.clusterSize - off, (range m).map (fun k => data (off + k)) =
        (range m).map fun k => v.fileByte disk l (off + k) := by
      intro m hm
      refine map_congr_left fun k hk => (hbyte _ ?_).symm
      have := mem_range.mp hk
      omega
    have hmem : [c] ⊆ l := by cases h <;> simp
    rw [readClusters, hdata]
    dsimp only
    split_ifs with hlast
    · rw [min_eq_right (by omega), hbytes _ (by omega)]
      exact ⟨rfl, hmem⟩
    rw [min_eq_left (by omega)]
    cases h with
    | last =>
      rw [length_singleton, Nat.one_mul] at hl
      omega
    | @link _ next rest _ hnext hgo h =>
      rw [length_cons, Nat.succ_mul] at hl
      obtain ⟨hrest, hsub⟩ := @ih next 0 (count - (v.clusterSize - off)) rest h v.clusterSize_pos
        (by omega) (by omega) (by omega)
      rw [hnext]
      simp only [hgo, Bool.false_eq_true, if_false]
      refine ⟨?_, cons_subset_cons c hsub⟩
      have hadd : count = v.clusterSize - off + (count - (v.clusterSize - off)) := by omega
      rw [hrest, hbytes _ le_rfl, Option.map_some]
      nth_rewrite 2 [hadd]
      rw [range_add, map_append, map_map]
      congr 2
      refine map_congr_left fun k _ => ?_
      have hpos : off + (v.clusterSize - off + k) = v.clusterSize * 1 + (0 + k) := by omega
      rw [Function.comp_apply, hpos, ← fileByte_drop]
      rfl

end Volume

/-- A read of a file whose chain covers its size reads only clusters of the chain. It returns the
bytes at the positions in the file, unless it needs a buffer from the pool and gets none. -/
theorem readFile_exact {v : Volume} {disk : Disk} {firstCluster fileSize : ℕ} {chain : List ℕ}
    (h : 0 < fileSize → v.FileChain disk firstCluster chain)
    (hsize : fileSize ≤ chain.length * v.clusterSize) (heap : Bool) (offset count : ℕ) :
    (v.readFile disk heap firstCluster fileSize offset count).2 ⊆ chain ∧
      (v.readFile disk heap firstCluster fileSize offset count).1 =
        if min count (fileSize - offset) = 0 ∨ v.clusterSize ≤ 4096 ∨ heap = true then
          some ((range (min count (fileSize - offset))).map fun k =>
            v.fileByte disk chain (offset + k))
        else none := by
  unfold Volume.readFile
  have hmin : min count (fileSize - offset) ≤ fileSize - offset := min_le_right ..
  generalize min count (fileSize - offset) = m at hmin
  dsimp only
  by_cases hm : m = 0
  · rw [if_pos (.inr hm), if_pos (.inl hm), hm]
    exact ⟨nil_subset _, rfl⟩
  have hin : offset / v.clusterSize < chain.length :=
    (Nat.div_lt_iff_lt_mul v.clusterSize_pos).mpr (by omega)
  obtain ⟨c, hskip, hc⟩ := (h (by omega)).skip hin
  rw [if_neg (by omega), hskip]
  simp only [hm, false_or]
  by_cases hbuf : v.clusterSize ≤ 4096 ∨ heap = true
  · have hsum := Nat.div_add_mod offset v.clusterSize
    have hleft : offset % v.clusterSize + m ≤
        (chain.drop (offset / v.clusterSize)).length * v.clusterSize := by
      rw [length_drop, Nat.sub_mul, Nat.mul_comm (offset / _)]
      omega
    obtain ⟨hread, hsub⟩ := hc.read (Nat.mod_lt _ v.clusterSize_pos) (by omega) le_rfl hleft
    rw [if_neg (by rcases hbuf with hbuf | hbuf <;> simp [hbuf]), if_pos hbuf]
    refine ⟨Subset.trans hsub (drop_subset _ _), hread.trans ?_⟩
    simp only [Volume.fileByte_drop, ← Nat.add_assoc, hsum]
  · rw [if_neg hbuf, if_pos (by simpa [not_or] using hbuf)]
    exact ⟨nil_subset _, rfl⟩

/-- Cluster 2 is linked to cluster 3; the bytes of the data are the numbers of their sectors. -/
def twoClusters : Disk := fun lba => some fun i =>
  if lba = 1 then if i = 8 then 3 else if i < 12 then 0 else 0xFF else lba.setWidth 8

theorem readFile_across :
    (oneSector.readFile twoClusters false 2 514 510 10).1 = some [2, 2, 3, 3] := by
  have hlink : oneSector.readFatEntry twoClusters 2 = some 3 := by decide
  have hchain : oneSector.FileChain twoClusters 2 [2, 3] :=
    .link (by decide) hlink (by decide) (.last (by decide))
  rw [(readFile_exact (fun _ => hchain) (by decide) false 510 10).2]
  decide +kernel

/-- A cluster of 8 KiB, and no buffer for it. -/
theorem readFile_no_buffer :
    let v := small 16 (by decide)
    v.FileChain twoClusters 2 [2] ∧ 1 ≤ v.clusterSize ∧
      (v.readFile twoClusters false 2 1 0 1).1 = none :=
  ⟨.last (by decide), by decide, by decide⟩

end Nexios.Fat32
