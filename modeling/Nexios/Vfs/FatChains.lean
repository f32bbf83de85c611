import Mathlib.Data.List.TakeWhile
import Nexios.Vfs.Fat32

/-!
# Writing to the file allocation table

A write goes to the copies of the table one after the other, until the device refuses one. The chain
that `free_cluster_chain` follows comes from the disk, and the answers of its writes are ignored.
-/

open List Nat Option Bool

namespace Nexios.Fat32

def le16 (s : ℕ → Byte) (i : ℕ) : ℕ := (s i).toNat + 2 ^ 8 * (s (i + 1)).toNat

def putLe32 (s : ℕ → Byte) (i x : ℕ) : ℕ → Byte := fun j =>
  if i ≤ j ∧ j < i + 4 then BitVec.ofNat 8 (x / 2 ^ (8 * (j - i))) else s j

theorem le32_lt (s : ℕ → Byte) (i : ℕ) : le32 s i < 2 ^ 32 := by
  unfold le32
  omega

theorem le32_putLe32_self (s : ℕ → Byte) (i x : ℕ) : le32 (putLe32 s i x) i = x % 2 ^ 32 := by
  simp [le32, putLe32, add_assoc]
  omega

theorem le32_putLe32_ne (s : ℕ → Byte) (x : ℕ) {i j : ℕ} (h : j + 4 ≤ i ∨ i + 4 ≤ j) :
    le32 (putLe32 s i x) j = le32 s j := by
  have hout : ∀ k, j ≤ k → k < j + 4 → putLe32 s i x k = s k := fun k _ _ => if_neg (by omega)
  unfold le32
  rw [hout j, hout (j + 1), hout (j + 2), hout (j + 3)]
  all_goals omega

/-- What `parse_bpb` accepts: the root cluster is checked and not used here. -/
def Accepted (s : ℕ → Byte) : Prop :=
  (s 510 = 0x55 ∧ s 511 = 0xAA) ∧ le16 s 11 = 512 ∧ (s 13 ≠ 0 ∧ s 13 &&& (s 13 - 1) = 0) ∧
    le16 s 14 ≠ 0 ∧ s 16 ≠ 0 ∧ le32 s 36 ≠ 0 ∧ 2 ≤ le32 s 44
  deriving Decidable

theorem toNat_pos {b : Byte} (h : b ≠ 0) : 0 < b.toNat :=
  Nat.pos_of_ne_zero fun h0 => h (BitVec.eq_of_toNat_eq h0)

def parseBpb (partition : ℕ) (s : ℕ → Byte) : Option Volume :=
  if h : Accepted s then
    some ⟨partition, le16 s 14, (s 16).toNat, le32 s 36, (s 13).toNat,
      if le32 s 32 = 0 then le16 s 19 else le32 s 32, toNat_pos h.2.2.2.2.1, (s 16).isLt,
      le32_lt s 36, toNat_pos h.2.2.1.1, (s 13).isLt⟩
  else none

/-- The sectors are overwritten; a sector that cannot be read stays so. -/
def Disk.put (disk : Disk) (ls : List Lba) (data : ℕ → Byte) : Disk := fun lba =>
  if lba ∈ ls then (disk lba).map fun _ => data else disk lba

namespace Volume

variable (v : Volume) (disk : Disk)

/-- The sectors that a write of the entry changes, if `ok i` says whether copy `i` is accepted. -/
def written (ok : ℕ → Bool) (cluster : ℕ) : List Lba :=
  ((range v.fatCount).takeWhile ok).map fun i => v.fatLba (i * v.fatSize + cluster * 4 / 512)

def writeFatEntry (ok : ℕ → Bool) (cluster value : ℕ) : Disk :=
  match disk (v.fatLba (cluster * 4 / 512)) with
  | none => disk
  | some s => disk.put (v.written ok cluster) (putLe32 s (cluster * 4 % 512) (value % 2 ^ 28))

/-- The sectors that are written; `ok n i` is the answer to the write of copy `i` in round `n`. -/
def freeClusterChain : ℕ → Disk → (ℕ → ℕ → Bool) → ℕ → Option (List Lba)
  | 0, _, _, _ => none
  | fuel + 1, disk, ok, current =>
    if isEof current || isFree current then some []
    else
      match v.readFatEntry disk current with
      | none => some []
      | some next =>
        (freeClusterChain fuel (v.writeFatEntry disk (ok 0) current 0) (fun n => ok (n + 1)) next).map
          (v.written (ok 0) current ++ ·)

/-- The sector lies in one of the copies of the table. -/
def InFat (lba : Lba) : Prop := ∃ i < v.fatCount * v.fatSize, lba = v.fatLba i

/-- The table has an entry for the cluster. -/
def Covers (cluster : ℕ) : Prop := cluster * 4 / 512 < v.fatSize
  deriving Decidable

/-- The links from `c` come to an end after fewer than `fuel` clusters, all of them in the table. -/
def chainEnds : ℕ → ℕ → Bool
  | 0, _ => false
  | fuel + 1, c =>
    isEof c || isFree c ||
      match v.readFatEntry disk c with
      | none => true
      | some next => v.Covers c && chainEnds fuel next

variable {v disk} {disk' : Disk} {ok : ℕ → Bool} {c x i j fuel : ℕ} {lba : Lba}

theorem size_lt_fats (v : Volume) : v.fatCount * v.fatSize < 2 ^ 40 := by
  have hlt := Nat.mul_lt_mul'' v.fats_lt v.size_lt
  omega

theorem fatLba_inj (hi : i < 2 ^ 63) (hj : j < 2 ^ 63) (h : v.fatLba i = v.fatLba j) : i = j := by
  have h := congrArg BitVec.toNat h
  simp only [fatLba, BitVec.toNat_ofNat] at h
  omega

/-- The index of a sector that a write changes. -/
theorem exists_of_mem_written (h : lba ∈ v.written ok c) :
    ∃ i < v.fatCount, lba = v.fatLba (i * v.fatSize + c * 4 / 512) ∧
      (i + 1) * v.fatSize ≤ v.fatCount * v.fatSize := by
  obtain ⟨i, hi, rfl⟩ := mem_map.mp h
  have hlt := mem_range.mp ((takeWhile_sublist ok).subset hi)
  exact ⟨i, hlt, rfl, mul_le_mul_right _ hlt⟩

theorem Covers.inFat (h : v.Covers c) (hl : lba ∈ v.written ok c) : v.InFat lba := by
  obtain ⟨i, -, rfl, hnext⟩ := exists_of_mem_written hl
  unfold Covers at h
  rw [succ_mul] at hnext
  exact ⟨_, by omega, rfl⟩

/-- A write changes no entry of the table but its own. -/
theorem readFatEntry_write (v : Volume) (disk : Disk) (ok : ℕ → Bool) (hc : c < 2 ^ 28) (value : ℕ)
    (hx : v.Covers x) :
    v.readFatEntry (v.writeFatEntry disk ok c value) x = v.readFatEntry disk x ∨
      x = c ∧ v.readFatEntry (v.writeFatEntry disk ok c value) x = some (value % 2 ^ 28) := by
  unfold readFatEntry writeFatEntry
  cases hs : disk (v.fatLba (c * 4 / 512)) with
  | none => exact .inl rfl
  | some s =>
    dsimp only [Disk.put]
    split_ifs with hw
    · -- the sector is one of the first copy
      obtain ⟨i, -, hi, hnext⟩ := exists_of_mem_written hw
      have hsize := v.size_lt_fats
      unfold Covers at hx
      rw [succ_mul] at hnext
      have hsame := fatLba_inj (by omega) (by omega) hi
      have hzero : i = 0 := by
        by_contra hne
        have := Nat.le_mul_of_pos_left v.fatSize (Nat.pos_of_ne_zero hne)
        omega
      rw [hzero, Nat.zero_mul, Nat.zero_add] at hsame
      rw [hsame, hs, map_some, map_some, map_some]
      by_cases hxc : x = c
      · subst hxc
        rw [le32_putLe32_self]
        exact .inr ⟨rfl, congrArg some (by omega)⟩
      · rw [le32_putLe32_ne _ _ (by omega)]
        exact .inl rfl
    · exact .inl rfl

theorem readFatEntry_write_none (ok : ℕ → Bool) (c value : ℕ) (hx : v.readFatEntry disk x = none) :
    v.readFatEntry (v.writeFatEntry disk ok c value) x = none := by
  unfold readFatEntry at hx ⊢
  rw [map_eq_none_iff] at hx ⊢
  unfold writeFatEntry
  cases disk (v.fatLba (c * 4 / 512)) with
  | none => exact hx
  | some s =>
    dsimp only [Disk.put]
    rw [hx]
    exact ite_self _

/-! ## Freeing a chain -/

/-- Entries of the table are as they were or cleared, and what cannot be read still cannot. -/
structure Cleared (v : Volume) (disk disk' : Disk) : Prop where
  none : ∀ x, v.readFatEntry disk x = none → v.readFatEntry disk' x = none
  entry : ∀ x, v.Covers x →
    v.readFatEntry disk' x = v.readFatEntry disk x ∨ v.readFatEntry disk' x = some 0

theorem Cleared.free (h : Cleared v disk disk') (ok : ℕ → Bool) (hc : c < 2 ^ 28) :
    Cleared v disk (v.writeFatEntry disk' ok c 0) where
  none x hx := readFatEntry_write_none ok c 0 (h.none x hx)
  entry x hx := by
    rcases readFatEntry_write v disk' ok hc 0 hx with heq | ⟨-, heq⟩ <;> rw [heq]
    · exact h.entry x hx
    · exact .inr rfl

theorem lt_of_not_eof (h : ¬ (isEof c || isFree c) = true) : c < 2 ^ 28 := by
  simp only [isEof, isFree, or_eq_true, decide_eq_true_eq] at h
  omega

theorem exists_freed (h : v.chainEnds disk fuel c) (hd : Cleared v disk disk')
    (ok : ℕ → ℕ → Bool) :
    ∃ w, v.freeClusterChain fuel disk' ok c = some w ∧ ∀ lba ∈ w, v.InFat lba := by
  induction fuel generalizing disk' ok c with
  | zero => cases h
  | succ fuel ih =>
    unfold chainEnds at h
    rw [freeClusterChain]
    split_ifs with hgo
    · exact ⟨[], rfl, nofun⟩
    rw [not_eq_true] at hgo
    rw [hgo, Bool.false_or] at h
    cases hread : v.readFatEntry disk c with
    | none =>
      rw [hd.none c hread]
      exact ⟨[], rfl, nofun⟩
    | some next =>
      rw [hread] at h
      obtain ⟨hc, hrest⟩ := and_eq_true_iff.mp h
      have hc : v.Covers c := of_decide_eq_true hc
      have hlt := lt_of_not_eof (ne_true_of_eq_false hgo)
      rcases hd.entry c hc with heq | heq
      · obtain ⟨w, hw, hin⟩ := ih hrest (hd.free (ok 0) hlt) fun n => ok (n + 1)
        rw [heq, hread]
        exact ⟨_, congrArg (Option.map _) hw,
          fun lba hl => (mem_append.mp hl).elim hc.inFat (hin lba)⟩
      · -- a cluster that is already freed ends the walk
        rw [heq]
        cases fuel with
        | zero => cases hrest
        | succ fuel => exact ⟨_, rfl, fun lba hl => hc.inFat ((append_nil _).subst hl)⟩

theorem writeFatEntry_refused (h : ok 0 = false) (c value : ℕ) :
    v.writeFatEntry disk ok c value = disk := by
  have hnil : v.written ok c = [] := by
    unfold written
    cases v.fatCount with
    | zero => rfl
    | succ n => rw [range_succ_eq_map, takeWhile_cons, h]; rfl
  unfold writeFatEntry
  split
  · rfl
  · rw [hnil]
    exact funext fun _ => if_neg not_mem_nil

/-- A walk that ends while all writes are refused ends in the table, or leaves it after `k` rounds,
and then a write outside follows. -/
theorem ends_or_escapes {w : List Lba}
    (h : v.freeClusterChain fuel disk (fun _ _ => false) c = some w) :
    v.chainEnds disk fuel c = true ∨ ∃ k, ∀ fuel w,
      v.freeClusterChain fuel disk (fun n _ => k ≤ n) c = some w → ∃ lba ∈ w, ¬ v.InFat lba := by
  induction fuel generalizing c w with
  | zero => cases h
  | succ fuel ih =>
    unfold chainEnds
    by_cases hgo : (isEof c || isFree c) = true
    · exact .inl (or_eq_true_iff.mpr (.inl hgo))
    cases hread : v.readFatEntry disk c with
    | none => exact .inl (or_true _)
    | some next =>
      rw [freeClusterChain, if_neg hgo, hread] at h
      obtain ⟨w', hw', -⟩ := map_eq_some_iff.mp h
      rw [writeFatEntry_refused rfl] at hw'
      by_cases hc : v.Covers c
      · refine (ih hw').imp (fun hrest => ?_) fun ⟨k, hk⟩ => ⟨k + 1, fun fuel w hw => ?_⟩
        · exact or_eq_true_iff.mpr (.inr (and_eq_true_iff.mpr ⟨decide_eq_true hc, hrest⟩))
        cases fuel with
        | zero => cases hw
        | succ fuel =>
          rw [freeClusterChain, if_neg hgo, hread] at hw
          obtain ⟨w₁, hw₁, rfl⟩ := map_eq_some_iff.mp hw
          rw [writeFatEntry_refused rfl] at hw₁
          simp only [Nat.add_le_add_iff_right] at hw₁
          obtain ⟨lba, hl, hout⟩ := hk fuel w₁ hw₁
          exact ⟨lba, mem_append_right _ hl, hout⟩
      · refine .inr ⟨0, fun fuel w hw => ?_⟩
        cases fuel with
        | zero => cases hw
        | succ fuel =>
          rw [freeClusterChain, if_neg hgo, hread] at hw
          obtain ⟨w₁, -, rfl⟩ := map_eq_some_iff.mp hw
          have hsize := v.size_lt_fats
          have hlt := lt_of_not_eof hgo
          have hlast := succ_mul (v.fatCount - 1) v.fatSize
          rw [Nat.succ_eq_add_one, Nat.sub_add_cancel v.fats_pos] at hlast
          unfold Covers at hc
          refine ⟨v.fatLba ((v.fatCount - 1) * v.fatSize + c * 4 / 512), mem_append_left _ ?_, ?_⟩
          · refine mem_map.mpr ⟨v.fatCount - 1, ?_, rfl⟩
            rw [takeWhile_eq_self_iff.mpr fun _ _ => decide_eq_true le_rfl, mem_range]
            exact Nat.sub_lt v.fats_pos Nat.one_pos
          · rintro ⟨i, hi, heq⟩
            have := fatLba_inj (by omega) (by omega) heq
            omega

end Volume

/-- `free_cluster_chain` ends, and writes only to the table, whichever writes the device refuses:
exactly if the links that it follows lie in the table and come to an end. -/
theorem free_chain_confined_iff (v : Volume) (disk : Disk) (first : ℕ) :
    (∀ ok, ∃ fuel w, v.freeClusterChain fuel disk ok first = some w ∧ ∀ lba ∈ w, v.InFat lba) ↔
      ∃ fuel, v.chainEnds disk fuel first = true := by
  constructor
  · intro h
    obtain ⟨fuel, w, hw, -⟩ := h fun _ _ => false
    obtain hends | ⟨k, hk⟩ := Volume.ends_or_escapes hw
    · exact ⟨fuel, hends⟩
    · obtain ⟨fuel, w, hw, hin⟩ := h fun n _ => k ≤ n
      obtain ⟨lba, hlba, hout⟩ := hk fuel w hw
      exact absurd (hin lba hlba) hout
  · rintro ⟨fuel, hends⟩ ok
    exact ⟨fuel, Volume.exists_freed hends ⟨fun _ h => h, fun _ _ => .inl rfl⟩ ok⟩

def boot : ℕ → Byte := fun i =>
  if i = 510 then 0x55 else if i = 511 then 0xAA else if i = 12 ∨ i = 44 then 2
  else if i = 32 then 6 else if i ∈ [13, 14, 16, 36] then 1 else 0

/-- The entry of cluster 2 is the only one that is not free. -/
def linked (next : ℕ) : Disk := fun lba =>
  some (if lba = 1 then putLe32 (fun _ => 0) 8 next else fun _ => 0)

/-- The table has one sector. A link to cluster 300 makes `free_cluster_chain` write behind it, and
if the device refuses all writes, a link from cluster 2 to itself is followed for ever. -/
theorem free_chain_unconfined : ∃ v, parseBpb 0 boot = some v ∧
    (∃ w, v.freeClusterChain 3 (linked 300) (fun _ _ => true) 2 = some w ∧
      ¬ ∀ lba ∈ w, v.InFat lba) ∧
    ∀ fuel, v.freeClusterChain fuel (linked 2) (fun _ _ => false) 2 = none := by
  refine ⟨oneSector, dif_pos (by decide), ⟨[1, 3], by decide +kernel, fun h => ?_⟩, fun fuel => ?_⟩
  · obtain ⟨i, hi, heq⟩ := h 3 (by decide)
    obtain rfl := Nat.lt_one_iff.mp hi
    exact absurd heq (by decide)
  have hread : oneSector.readFatEntry (linked 2) 2 = some 2 := by decide
  induction fuel with
  | zero => rfl
  | succ fuel ih =>
    rw [Volume.freeClusterChain, hread, if_neg (by decide)]
    dsimp only
    rw [Volume.writeFatEntry_refused rfl, ih]
    rfl

end Nexios.Fat32
