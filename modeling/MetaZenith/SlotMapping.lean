import MetaZenith.InputBatch
import MetaZenith.Interleave

/-! The slots of `_compute_slot_mapping_kernel`. A virtual block holds one block of every rank of the
context-parallel group; its positions go to the ranks in turn, an interleave of them at a time. -/

namespace MetaZenith

open Interleave

structure SlotLayout where
  kvCacheBlockSize : ℕ
  blockSize : ℕ
  totalCpWorldSize : ℕ
  cpKvCacheInterleaveSize : ℕ
  size_pos : 0 < kvCacheBlockSize
  world_pos : 0 < totalCpWorldSize
  kernel_dvd : blockSize ∣ kvCacheBlockSize
  interleave_dvd : cpKvCacheInterleaveSize ∣ kvCacheBlockSize

namespace SlotLayout

def blocksPerKvBlock (c : SlotLayout) : ℕ := c.kvCacheBlockSize/c.blockSize

def virtualBlockSize (c : SlotLayout) : ℕ := c.kvCacheBlockSize*c.totalCpWorldSize

def virtualBlockOffset (c : SlotLayout) (pos : ℕ) : ℕ :=
  pos-pos/c.virtualBlockSize*c.virtualBlockSize

def IsLocal (c : SlotLayout) (rank pos : ℕ) : Prop :=
  c.virtualBlockOffset pos/c.cpKvCacheInterleaveSize%c.totalCpWorldSize = rank
  deriving Decidable

def localBlockOffset (c : SlotLayout) (pos : ℕ) : ℕ :=
  c.virtualBlockOffset pos/(c.totalCpWorldSize*c.cpKvCacheInterleaveSize)*c.cpKvCacheInterleaveSize+
    c.virtualBlockOffset pos%c.cpKvCacheInterleaveSize

/-- The slot of a position on a rank; `-1` is `PAD_SLOT_ID`. -/
def slotId (c : SlotLayout) (row : List ℕ) (rank pos : ℕ) : ℤ :=
  let blockIndex := pos/c.virtualBlockSize*c.blocksPerKvBlock+c.localBlockOffset pos/c.blockSize
  let blockNumber := row.getD blockIndex 0
  if c.IsLocal rank pos then blockNumber*c.blockSize+c.localBlockOffset pos%c.blockSize else -1

def slotMapping (c : SlotLayout) (blockIds : List ℕ) (rank pos : ℕ) : ℤ :=
  c.slotId (BlockTable.mapToKernelBlocks c.blocksPerKvBlock blockIds) rank pos

/-- The position of a virtual block that has offset `o` on a rank. -/
def position (c : SlotLayout) (virtualBlock rank o : ℕ) : ℕ :=
  virtualBlock*c.virtualBlockSize+place c.cpKvCacheInterleaveSize c.totalCpWorldSize rank o

variable (c : SlotLayout) {virtualBlock rank o : ℕ}

theorem interleave_pos : 0 < c.cpKvCacheInterleaveSize :=
  Nat.pos_of_dvd_of_pos c.interleave_dvd c.size_pos

theorem virtualBlockOffset_eq (pos : ℕ) : c.virtualBlockOffset pos = pos%c.virtualBlockSize := by
  rw [virtualBlockOffset, Nat.mul_comm, ← Nat.mod_eq_sub]

section

variable (hrank : rank < c.totalCpWorldSize)

include hrank

theorem position_div (ho : o < c.kvCacheBlockSize) :
    c.position virtualBlock rank o/c.virtualBlockSize = virtualBlock := by
  have hlt : place _ _ rank o < c.virtualBlockSize :=
    place_lt c.interleave_pos c.interleave_dvd hrank ho
  rw [position, Nat.mul_comm, Nat.mul_add_div (Nat.zero_lt_of_lt hlt), Nat.div_eq_of_lt hlt,
    Nat.add_zero]

theorem virtualBlockOffset_position (ho : o < c.kvCacheBlockSize) :
    c.virtualBlockOffset (c.position virtualBlock rank o) =
      place c.cpKvCacheInterleaveSize c.totalCpWorldSize rank o := by
  rw [virtualBlockOffset_eq, position, Nat.mul_add_mod_self_right]
  exact Nat.mod_eq_of_lt (place_lt c.interleave_pos c.interleave_dvd hrank ho)

theorem isLocal_position (ho : o < c.kvCacheBlockSize) :
    c.IsLocal rank (c.position virtualBlock rank o) := by
  rw [IsLocal, c.virtualBlockOffset_position hrank ho]
  exact part_place c.interleave_pos hrank

theorem localBlockOffset_position
    (ho : o < c.kvCacheBlockSize) : c.localBlockOffset (c.position virtualBlock rank o) = o := by
  rw [localBlockOffset, c.virtualBlockOffset_position hrank ho]
  exact offset_place c.interleave_pos hrank

end

theorem position_of_isLocal {pos : ℕ} (h : c.IsLocal rank pos) :
    rank < c.totalCpWorldSize ∧ c.localBlockOffset pos < c.kvCacheBlockSize ∧
      c.position (pos/c.virtualBlockSize) rank (c.localBlockOffset pos) = pos := by
  have hsize : 0 < c.virtualBlockSize := Nat.mul_pos c.size_pos c.world_pos
  have hoffset : c.virtualBlockOffset pos < c.virtualBlockSize := by
    rw [virtualBlockOffset_eq]
    exact Nat.mod_lt _ hsize
  have hplace : place c.cpKvCacheInterleaveSize c.totalCpWorldSize rank (c.localBlockOffset pos) =
      c.virtualBlockOffset pos := by
    rw [← h]
    exact place_part_offset c.interleave_pos _
  refine ⟨h ▸ Nat.mod_lt _ c.world_pos,offset_lt c.interleave_pos c.interleave_dvd hoffset,?_⟩
  rw [position, hplace, virtualBlockOffset_eq, Nat.div_add_mod']

theorem getElem?_mapToKernelBlocks {blocksPerKvBlock j : ℕ} (hj : j < blocksPerKvBlock)
    (blockIds : List ℕ) (v : ℕ) :
    (BlockTable.mapToKernelBlocks blocksPerKvBlock blockIds)[v*blocksPerKvBlock+j]? =
      blockIds[v]?.map (·*blocksPerKvBlock+j) := by
  rw [BlockTable.mapToKernelBlocks]
  split
  · case isTrue h =>
    obtain rfl : j = 0 := by omega
    simp [h]
  · induction blockIds generalizing v with
    | nil => simp
    | cons b blockIds ih =>
      rw [List.flatMap_cons, List.getElem?_append, List.length_map, List.length_range]
      cases v with
      | zero => simp [hj]
      | succ v =>
        have hindex : (v+1)*blocksPerKvBlock+j-blocksPerKvBlock = v*blocksPerKvBlock+j := by
          rw [Nat.succ_mul]
          omega
        rw [if_neg (by rw [Nat.succ_mul]; omega), hindex, ih, List.getElem?_cons_succ]

theorem slotId_position {blockIds : List ℕ} {b : ℕ} (hb : blockIds[virtualBlock]? = some b)
    (hrank : rank < c.totalCpWorldSize) (ho : o < c.kvCacheBlockSize) :
    c.slotMapping blockIds rank (c.position virtualBlock rank o) = b*c.kvCacheBlockSize+o := by
  have hsize : c.blocksPerKvBlock*c.blockSize = c.kvCacheBlockSize := Nat.div_mul_cancel c.kernel_dvd
  have hj : o/c.blockSize < c.blocksPerKvBlock := by
    apply Nat.div_lt_of_lt_mul
    rwa [Nat.mul_comm, hsize]
  have hslot : (b*c.blocksPerKvBlock+o/c.blockSize)*c.blockSize+o%c.blockSize =
      b*c.kvCacheBlockSize+o := by
    rw [Nat.add_mul, Nat.mul_assoc, hsize, Nat.add_assoc, Nat.div_add_mod']
  rw [slotMapping, slotId, if_pos (c.isLocal_position hrank ho), c.position_div hrank ho,
    c.localBlockOffset_position hrank ho, List.getD_eq_getElem?_getD,
    getElem?_mapToKernelBlocks hj, hb]
  exact_mod_cast hslot

/-- Each position has one rank; its slot there lies in the block of its virtual block. The positions
of a rank have different slots, and those of a virtual block take all slots of its block. -/
theorem slot_mapping_bijective (blockIds : List ℕ) (hnodup : blockIds.Nodup) :
    (∀ pos, ∃! rank, rank < c.totalCpWorldSize ∧ c.IsLocal rank pos) ∧
    (∀ rank pos, c.IsLocal rank pos → ∀ b, blockIds[pos/c.virtualBlockSize]? = some b →
      ∃ o < c.kvCacheBlockSize, c.slotMapping blockIds rank pos = b*c.kvCacheBlockSize+o) ∧
    (∀ rank pos pos', c.IsLocal rank pos → c.IsLocal rank pos' →
      pos/c.virtualBlockSize < blockIds.length → pos'/c.virtualBlockSize < blockIds.length →
      c.slotMapping blockIds rank pos = c.slotMapping blockIds rank pos' → pos = pos') ∧
    ∀ v b : ℕ, blockIds[v]? = some b → ∀ rank < c.totalCpWorldSize, ∀ o < c.kvCacheBlockSize,
      ∃ pos, pos/c.virtualBlockSize = v ∧ c.IsLocal rank pos ∧
        c.slotMapping blockIds rank pos = b*c.kvCacheBlockSize+o := by
  refine ⟨fun pos => ?_,fun rank pos h b hb => ?_,fun rank pos pos' h h' hlt hlt' heq => ?_,
    fun v b hb rank hrank o ho => ?_⟩
  · exact ⟨_,⟨Nat.mod_lt _ c.world_pos,rfl⟩,fun rank h => h.2.symm⟩
  · obtain ⟨hrank,ho,hpos⟩ := c.position_of_isLocal h
    have hslot := c.slotId_position hb hrank ho
    rw [hpos] at hslot
    exact ⟨_,ho,hslot⟩
  · obtain ⟨hrank,ho,hpos⟩ := c.position_of_isLocal h
    obtain ⟨-,ho',hpos'⟩ := c.position_of_isLocal h'
    generalize c.localBlockOffset pos = o at ho hpos
    generalize c.localBlockOffset pos' = o' at ho' hpos'
    rw [← hpos, ← hpos', c.slotId_position (List.getElem?_eq_getElem hlt) hrank ho,
      c.slotId_position (List.getElem?_eq_getElem hlt') hrank ho'] at heq
    -- the block and the offset in it are determined by the slot
    have heq : o+c.kvCacheBlockSize*blockIds[pos/c.virtualBlockSize] =
        o'+c.kvCacheBlockSize*blockIds[pos'/c.virtualBlockSize] := by
      rw [Nat.mul_comm, Nat.add_comm, Nat.mul_comm _ blockIds[_], Nat.add_comm o']
      exact_mod_cast heq
    have hblock := congrArg (·/c.kvCacheBlockSize) heq
    have hoffset := congrArg (·%c.kvCacheBlockSize) heq
    simp only [Nat.add_mul_div_left _ _ c.size_pos, Nat.div_eq_of_lt ho, Nat.div_eq_of_lt ho',
      Nat.zero_add] at hblock
    simp only [Nat.add_mul_mod_self_left, Nat.mod_eq_of_lt ho, Nat.mod_eq_of_lt ho'] at hoffset
    have hv := (hnodup.getElem_inj_iff).mp hblock
    rw [← hpos, ← hpos', hv, hoffset]
  · exact ⟨c.position v rank o,c.position_div hrank ho,c.isLocal_position hrank ho,
      c.slotId_position hb hrank ho⟩

theorem slot_mapping_bijective_two_ranks :
    ∃ pos, pos/8 = 1 ∧ IsLocal ⟨4,2,2,2,by decide,by decide,by decide,by decide⟩ 1 pos ∧
      slotMapping ⟨4,2,2,2,by decide,by decide,by decide,by decide⟩ [5,3] 1 pos = 3*4+2 :=
  (slot_mapping_bijective ⟨4,2,2,2,by decide,by decide,by decide,by decide⟩ [5,3] (by decide)).2.2.2
    1 3 rfl 1 (by decide) 2 (by decide)

end SlotLayout

end MetaZenith
