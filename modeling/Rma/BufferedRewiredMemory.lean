import Rma.RewiredMemory
import Rma.Base.Words

/-!
# Buffered rewired memory

`BufferedRewiredMemory` splits a rewired memory into the user space, at the front
of the range, and a pool of buffers of one extent each, at its end. A client
acquires a buffer, fills it, and swaps it with an extent of the user space, which
releases the buffer. The user space can grow over the buffers and shrink into
them.

The boundary moves both ways over the same addresses. `Client` pairs the memory
with the buffers its client holds, `Client.Inv` says that the free buffers and
the held ones are exactly the extents past the boundary, and `Client.inv_step` is
the step lemma from which every run keeps the two spaces apart. Sizes wrap around: a
user space that is extended by `2 ^ 63` extents or more shrinks, and one whose bytes do
not fit in 64 bits truncates the file. A run is `Sized` where no extension does either.
-/

namespace Rma

open Base

structure BufferedRewiredMemory (α : Type) where
  inst : RewiredMemory α
  bufferStartAddress : Nat
  allocatedBuffers : Nat
  /-- The free buffers, the front of the deque first. -/
  buffers : List Nat

/-- A method of `BufferedRewiredMemory`. -/
abbrev BufferedM (α : Type) := EStateM RewiredMemoryException (BufferedRewiredMemory α)

namespace BufferedRewiredMemory

variable {α : Type}

def getExtentSize (b : BufferedRewiredMemory α) : Nat := b.inst.getExtentSize

def getAllocatedExtents (b : BufferedRewiredMemory α) : Nat := b.inst.getAllocatedExtents

def getAllocatedMemorySize (b : BufferedRewiredMemory α) : Nat := b.inst.getAllocatedMemorySize

def getTotalBuffers (b : BufferedRewiredMemory α) : Nat := b.allocatedBuffers

def getUsedBuffers (b : BufferedRewiredMemory α) : Nat := b.allocatedBuffers - b.buffers.length

/-- The default amount of virtual memory reserved by an instance, in bytes. -/
def defaultMaxMemory : Nat := 2 ^ 35

/-- The constructor. -/
def create (pageSize pagesPerExtent numExtents startAddress : Nat) (file : Nat → α) :
    Except RewiredMemoryException (BufferedRewiredMemory α) := do
  let m ← RewiredMemory.create pageSize pagesPerExtent numExtents startAddress
    defaultMaxMemory file
  return {
    inst := m
    bufferStartAddress := m.startAddress + m.getAllocatedMemorySize
    allocatedBuffers := 0
    buffers := [] }

/-- A method of the underlying memory. -/
def onInstance {β : Type} (method : RewiredM α β) : BufferedM α β :=
  onMember inst (fun b m => { b with inst := m }) method

/-- `push_front` of `count` consecutive extents, the first at `address`. -/
def pushFront (extentSize address count : Nat) (buffers : List Nat) : List Nat :=
  (List.range count).foldl (fun queue i => (address + i * extentSize) :: queue) buffers

/-- Extend the physical memory to make available additional buffers. -/
def addBuffers (numExtents : Nat) (growth : Growth α) : BufferedM α Unit := do
  onInstance (RewiredMemory.extend numExtents growth)
  -- register the new buffers
  modify fun b =>
    let bufferSpace := b.bufferStartAddress + b.getExtentSize * b.getTotalBuffers
    { b with
      buffers := pushFront b.getExtentSize bufferSpace numExtents b.buffers
      allocatedBuffers := b.allocatedBuffers + numExtents }

/-- Get a buffer from the back of the free list. -/
def acquireBuffer (growth : Growth α) : BufferedM α Nat := do
  let b ← get
  runIf (b.buffers = []) (addBuffers (max 4 (b.allocatedBuffers / 2)) growth)
  let b ← get
  set { b with buffers := b.buffers.dropLast }
  return b.buffers.getLastD 0

/-- Swap an extent of the user space with a buffer, in either order of the two
arguments, and release the buffer. -/
def swapAndRelease (addr1 addr2 : Nat) (mmap1 mmap2 : Bool) : BufferedM α Unit := do
  let b ← get
  raiseIf (addr1 ≥ b.bufferStartAddress ∧ addr2 ≥ b.bufferStartAddress)
    (.bothBuffers addr1 addr2)
  raiseIf (addr1 < b.bufferStartAddress ∧ addr2 < b.bufferStartAddress)
    (.noBuffer addr1 addr2)
  let ptrBufferspace := if addr1 ≥ b.bufferStartAddress then addr1 else addr2
  let ptrUserspace := if addr1 ≥ b.bufferStartAddress then addr2 else addr1
  onInstance (RewiredMemory.swap ptrUserspace ptrBufferspace mmap1 mmap2)
  modify fun b => { b with buffers := b.buffers ++ [ptrBufferspace] }

/-- Extend the user space, first over the buffers and then by new extents. -/
def extend (numExtents : Nat) (growth : Growth α) : BufferedM α Unit := do
  raiseIf (numExtents = 0) .zeroExtents
  let b ← get
  raiseIf (b.getUsedBuffers ≠ 0) (.buffersInUse b.getUsedBuffers b.getTotalBuffers)
  let numExtentsBuffer := int64 b.getTotalBuffers
  let additionalPhysMemory := int64 (int64 numExtents - numExtentsBuffer)
  if additionalPhysMemory < 0 then
    -- no need to extend the physical memory, just cover the space of the buffers
    let bufferStartAddress := (b.bufferStartAddress + numExtents * b.getExtentSize) % 2 ^ 64
    let allocatedBuffers := uint64 (numExtentsBuffer - numExtents)
    set { b with
      bufferStartAddress := bufferStartAddress
      allocatedBuffers := allocatedBuffers
      buffers := pushFront b.getExtentSize bufferStartAddress allocatedBuffers [] }
  else do
    onInstance (RewiredMemory.extend additionalPhysMemory.toNat growth)
    -- all the space previously occupied by the buffers is now in use for the user data
    modify fun b => { b with
      bufferStartAddress := b.inst.startAddress + b.inst.getAllocatedMemorySize
      allocatedBuffers := 0
      buffers := [] }

/-- Give the last `numExtents` extents of the user space to the buffers. The
addresses are pushed to the front from the boundary downwards. -/
def shrink (numExtents : Nat) : BufferedM α Unit := do
  raiseIf (numExtents = 0) .zeroExtents
  let b ← get
  raiseIf (b.getUsedBuffers ≠ 0) (.buffersInUse b.getUsedBuffers b.getTotalBuffers)
  raiseIf (numExtents > b.getAllocatedExtents - b.getTotalBuffers) .releasingTooMuch
  set { b with
    buffers := (List.range numExtents).foldl
      (fun queue i => (b.bufferStartAddress - (i + 1) * b.getExtentSize) :: queue) b.buffers
    allocatedBuffers := b.allocatedBuffers + numExtents
    bufferStartAddress := b.bufferStartAddress - numExtents * b.getExtentSize }

/-! ## The two spaces -/

/-- The number of extents of the user space. -/
def userExtents (b : BufferedRewiredMemory α) : Nat :=
  b.getAllocatedExtents - b.getTotalBuffers

/-- The extents from the boundary to the end of the allocated memory. -/
def bufferSpace (b : BufferedRewiredMemory α) : List Nat :=
  (List.range b.allocatedBuffers).map fun k => b.inst.addressOf (b.userExtents + k)

/-- The boundary is where the buffers start, counting back from the end. -/
structure Bounded (b : BufferedRewiredMemory α) : Prop where
  wf : b.inst.WF
  maxMemory : b.inst.maxMemory = defaultMaxMemory
  extents_pos : 0 < b.getAllocatedExtents
  buffers_le : b.allocatedBuffers ≤ b.getAllocatedExtents
  boundary : b.bufferStartAddress = b.inst.addressOf b.userExtents

theorem Bounded.nodup_bufferSpace {b : BufferedRewiredMemory α} (bounded : b.Bounded) :
    b.bufferSpace.Nodup := by
  refine List.Nodup.map (fun i j same => ?_) List.nodup_range
  have := bounded.wf.address_inj.mp same
  omega

theorem Bounded.mem_bufferSpace {b : BufferedRewiredMemory α} (bounded : b.Bounded) {j : Nat} :
    b.inst.addressOf j ∈ b.bufferSpace ↔
      b.userExtents ≤ j ∧ j < b.getAllocatedExtents := by
  have buffersLe := bounded.buffers_le
  simp only [bufferSpace, List.mem_map, List.mem_range, bounded.wf.address_inj]
  unfold userExtents getTotalBuffers
  constructor
  · rintro ⟨k, hk, rfl⟩
    omega
  · rintro ⟨lower, upper⟩
    exact ⟨j - (b.getAllocatedExtents - b.allocatedBuffers), by omega, by omega⟩

theorem Bounded.bufferStart_le_iff {b : BufferedRewiredMemory α} (bounded : b.Bounded) {j : Nat} :
    b.bufferStartAddress ≤ b.inst.addressOf j ↔ b.userExtents ≤ j := by
  rw [bounded.boundary, ← not_lt, bounded.wf.address_lt_iff, not_lt]

theorem pushFront_perm (extentSize address count : Nat) (buffers : List Nat) :
    (pushFront extentSize address count buffers).Perm
      (buffers ++ (List.range count).map fun i => address + i * extentSize) := by
  induction count with
  | zero => simp [pushFront]
  | succ count ih =>
      rw [pushFront, List.range_succ, List.foldl_append, List.map_append, ← List.append_assoc]
      exact (List.Perm.cons _ ih).trans (List.perm_append_singleton _ _).symm

theorem Bounded.pushFront_perm {b : BufferedRewiredMemory α} (first count : Nat)
    (buffers : List Nat) :
    (pushFront b.getExtentSize (b.inst.addressOf first) count buffers).Perm
      (buffers ++ (List.range count).map fun k => b.inst.addressOf (first + k)) := by
  refine (BufferedRewiredMemory.pushFront_perm _ _ _ _).trans ?_
  simp [RewiredMemory.addressOf, getExtentSize, Nat.add_mul, Nat.add_assoc]

/-! ## What a successful call did -/

theorem onInstance_ok {β : Type} {method : RewiredM α β} {b b' : BufferedRewiredMemory α} {x : β}
    (ok : onInstance method b = .ok x b') :
    ∃ m, method b.inst = .ok x m ∧ b' = { b with inst := m } := by
  obtain ⟨m, run, rfl⟩ := onMember_eq_ok.mp ok
  exact ⟨m, run, rfl⟩

/-- The extents are few, and their bytes are not more than the instance reserves. -/
theorem Bounded.extents_lt {b : BufferedRewiredMemory α} (bounded : b.Bounded) :
    b.inst.getExtentSize * b.inst.getAllocatedExtents ≤ 2 ^ 35 ∧
      b.inst.getAllocatedExtents ≤ 2 ^ 35 ∧ b.inst.getExtentSize ≤ 2 ^ 35 := by
  have size := bounded.wf.size_le.trans bounded.wf.file_le
  rw [bounded.maxMemory, defaultMaxMemory] at size
  have extent := bounded.wf.extent_pos
  have extents := bounded.extents_pos
  unfold getAllocatedExtents at extents
  exact ⟨size, (Nat.le_mul_of_pos_left _ extent).trans size,
    (Nat.le_mul_of_pos_right _ extents).trans size⟩

/-- The buffers that are added when none is left fit. -/
theorem Bounded.fits_buffers {b : BufferedRewiredMemory α} (bounded : b.Bounded) :
    b.inst.Fits (max 4 (b.allocatedBuffers / 2)) := by
  obtain ⟨size, extents, extent⟩ := bounded.extents_lt
  have buffersLe := bounded.buffers_le
  unfold getAllocatedExtents at buffersLe
  have most : max 4 (b.allocatedBuffers / 2) ≤ 4 + b.inst.getAllocatedExtents := by omega
  have bytes := Nat.mul_le_mul_right b.inst.getExtentSize most
  rw [Nat.add_mul, Nat.mul_comm b.inst.getAllocatedExtents] at bytes
  unfold RewiredMemory.Fits
  rw [bounded.wf.allocated]
  omega

/-- New buffers are pushed on the free list behind the old ones' addresses; the
user space stays as it was. -/
theorem addBuffers_ok {b b' : BufferedRewiredMemory α} {numExtents : Nat} {growth : Growth α}
    {u : Unit} (bounded : b.Bounded) (fits : b.inst.Fits numExtents)
    (ok : addBuffers numExtents growth b = .ok u b') :
    b'.Bounded ∧ b'.userExtents = b.userExtents ∧
      (∀ k < b.getAllocatedExtents, b'.inst.visible k = b.inst.visible k) ∧
      b'.inst.addressOf = b.inst.addressOf ∧
      b'.allocatedBuffers = b.allocatedBuffers + numExtents ∧
      b'.buffers.Perm (b.buffers ++ (List.range numExtents).map fun k =>
        b.inst.addressOf (b.userExtents + (b.allocatedBuffers + k))) := by
  simp only [addBuffers, bind_eq_ok, modify_eq_ok] at ok
  obtain ⟨_, _, call, rfl⟩ := ok
  obtain ⟨m, extended, rfl⟩ := onInstance_ok call
  obtain ⟨wf, grown, sameSize, sameAddress, sameMax, sameVisible⟩ :=
    RewiredMemory.extend_ok bounded.wf fits extended
  have buffersLe := bounded.buffers_le
  have extents := bounded.extents_pos
  unfold getAllocatedExtents at buffersLe extents
  have sameUser : m.getAllocatedExtents - (b.allocatedBuffers + numExtents) = b.userExtents := by
    unfold userExtents getAllocatedExtents getTotalBuffers
    omega
  have start : b.bufferStartAddress + m.getExtentSize * b.allocatedBuffers =
      b.inst.addressOf (b.userExtents + b.allocatedBuffers) := by
    rw [bounded.boundary, sameSize]
    simp only [RewiredMemory.addressOf]
    ring
  refine ⟨⟨wf, sameMax.trans bounded.maxMemory, ?_, ?_, ?_⟩, sameUser, sameVisible, sameAddress,
    rfl, ?_⟩
  · change 0 < m.getAllocatedExtents
    omega
  · change b.allocatedBuffers + numExtents ≤ m.getAllocatedExtents
    omega
  · change b.bufferStartAddress = m.addressOf _
    rw [sameAddress, bounded.boundary]
    exact congrArg _ sameUser.symm
  · have pushed := Bounded.pushFront_perm (b := b) (b.userExtents + b.allocatedBuffers)
      numExtents b.buffers
    simp only [getTotalBuffers, getExtentSize] at start pushed ⊢
    rw [start, sameSize]
    simpa only [Nat.add_assoc] using pushed

/-- The buffer handed out was free, possibly just allocated. -/
theorem acquireBuffer_ok {b b' : BufferedRewiredMemory α} {growth : Growth α} {address : Nat}
    {acquired : List Nat} (bounded : b.Bounded)
    (owned : (b.buffers ++ acquired).Perm b.bufferSpace)
    (ok : acquireBuffer growth b = .ok address b') :
    b'.Bounded ∧ b'.userExtents = b.userExtents ∧
      (∀ k < b.getAllocatedExtents, b'.inst.visible k = b.inst.visible k) ∧
      b'.inst.addressOf = b.inst.addressOf ∧
      (b'.buffers ++ address :: acquired).Perm b'.bufferSpace := by
  simp only [acquireBuffer, bind_eq_ok, get_eq_ok, set_eq_ok, pure_eq_ok, runIf_eq_ok] at ok
  obtain ⟨_, _, ⟨rfl, rfl⟩, _, mid, filled, _, _, ⟨rfl, rfl⟩, _, _, rfl, rfl, rfl⟩ := ok
  -- whichever way the free list was filled, it is not empty and is still accounted for
  have refilled : mid.Bounded ∧ mid.userExtents = b.userExtents ∧
      (∀ k < b.getAllocatedExtents, mid.inst.visible k = b.inst.visible k) ∧
      mid.inst.addressOf = b.inst.addressOf ∧
      (mid.buffers ++ acquired).Perm mid.bufferSpace ∧ mid.buffers ≠ [] := by
    rcases filled with ⟨empty, added⟩ | ⟨nonempty, rfl⟩
    · obtain ⟨bounded', sameUser, sameVisible, sameAddress, count, perm⟩ :=
        addBuffers_ok bounded bounded.fits_buffers added
      refine ⟨bounded', sameUser, sameVisible, sameAddress, ?_, ?_⟩
      · unfold bufferSpace at owned ⊢
        rw [count, sameUser, sameAddress, List.range_add, List.map_append, List.map_map]
        refine ((perm.append_right acquired).trans ?_)
        rw [List.append_assoc]
        refine (List.perm_append_comm.append_left _).trans ?_
        rw [← List.append_assoc]
        exact owned.append_right _
      · intro none
        have count := perm.length_eq
        simp only [none, empty, List.nil_append, List.length_nil, List.length_map,
          List.length_range] at count
        omega
    · exact ⟨bounded, rfl, fun _ _ => rfl, rfl, owned, nonempty⟩
  obtain ⟨bounded', sameUser, sameVisible, sameAddress, owned', nonempty⟩ := refilled
  refine ⟨⟨bounded'.wf, bounded'.maxMemory, bounded'.extents_pos, bounded'.buffers_le,
    bounded'.boundary⟩, sameUser, sameVisible, sameAddress, ?_⟩
  refine List.Perm.trans ?_ owned'
  change (mid.buffers.dropLast ++ mid.buffers.getLastD 0 :: acquired).Perm _
  rw [List.getLastD_eq_getLast?, List.getLast?_eq_some_getLast nonempty, Option.getD_some,
    List.append_cons, List.dropLast_append_getLast nonempty]

/-- The extent and the buffer exchange their contents, and the buffer is free. -/
theorem swapAndRelease_ok {b b' : BufferedRewiredMemory α} {user buffer : Nat}
    {mmap1 mmap2 : Bool} {u : Unit} (bounded : b.Bounded) (inUser : user < b.bufferStartAddress)
    (ok : swapAndRelease user buffer mmap1 mmap2 b = .ok u b') :
    b'.Bounded ∧ b'.userExtents = b.userExtents ∧ b'.inst.addressOf = b.inst.addressOf ∧
      b'.bufferSpace = b.bufferSpace ∧ b'.buffers = b.buffers ++ [buffer] ∧
      ∃ i < b.userExtents, ∃ j, b.userExtents ≤ j ∧ user = b.inst.addressOf i ∧
        buffer = b.inst.addressOf j ∧ b'.inst.visible i = b.inst.visible j ∧
        ∀ k, k ≠ i → k ≠ j → b'.inst.visible k = b.inst.visible k := by
  simp only [swapAndRelease, bind_eq_ok, get_eq_ok, raiseIf_eq_ok, modify_eq_ok] at ok
  obtain ⟨_, _, ⟨rfl, rfl⟩, _, _, ⟨-, rfl⟩, _, _, ⟨oneBuffer, rfl⟩, _, _, call, rfl⟩ := ok
  rw [if_neg (by omega), if_neg (by omega)] at call
  rw [if_neg (by omega)]
  obtain ⟨m, swapped, rfl⟩ := onInstance_ok call
  obtain ⟨i, hi, j, hj, distinct, rfl, rfl, sameExtents, sameSize, sameAddress, sameMax, shown, -,
    others⟩ :=
    RewiredMemory.swap_frame bounded.wf swapped
  have sameUser : m.getAllocatedExtents - b.allocatedBuffers = b.userExtents := by
    unfold userExtents getAllocatedExtents getTotalBuffers
    rw [sameExtents]
  have lower : i < b.userExtents := by
    by_contra above
    exact absurd (bounded.bufferStart_le_iff.mpr (not_lt.mp above)) (not_le.mpr inUser)
  have upper : b.userExtents ≤ j := by
    refine bounded.bufferStart_le_iff.mp ?_
    by_contra below
    exact oneBuffer ⟨inUser, not_le.mp below⟩
  refine ⟨⟨bounded.wf.swap swapped, sameMax.trans bounded.maxMemory,
    bounded.extents_pos.trans_eq sameExtents.symm, ?_, ?_⟩, sameUser, sameAddress, ?_, rfl,
    i, lower, j, upper, rfl, rfl, shown, others⟩
  · exact bounded.buffers_le.trans_eq sameExtents.symm
  · change b.bufferStartAddress = m.addressOf _
    rw [sameAddress, bounded.boundary]
    exact congrArg _ sameUser.symm
  · change (List.range b.allocatedBuffers).map
      (fun k => m.addressOf (m.getAllocatedExtents - b.allocatedBuffers + k)) = _
    rw [sameAddress, sameUser]
    rfl

/-- With no buffer in use every buffer is free. -/
theorem no_acquired {b : BufferedRewiredMemory α} {acquired : List Nat}
    (owned : (b.buffers ++ acquired).Perm b.bufferSpace) (unused : b.getUsedBuffers = 0) :
    acquired = [] := by
  have count := owned.length_eq
  simp only [List.length_append, bufferSpace, List.length_map, List.length_range] at count
  unfold getUsedBuffers at unused
  exact List.length_eq_zero_iff.mp (by omega)

/-- An extension fits where it is below `2 ^ 63` and so are its bytes below `2 ^ 64`. -/
def Fits (b : BufferedRewiredMemory α) (numExtents : Nat) : Prop :=
  numExtents < 2 ^ 63 ∧ b.inst.Fits (numExtents - b.getTotalBuffers)

/-- The user space grows by `numExtents`, over the buffers first. -/
theorem extend_ok {b b' : BufferedRewiredMemory α} {numExtents : Nat} {growth : Growth α}
    {u : Unit} {acquired : List Nat} (bounded : b.Bounded) (fits : b.Fits numExtents)
    (owned : (b.buffers ++ acquired).Perm b.bufferSpace)
    (ok : extend numExtents growth b = .ok u b') :
    acquired = [] ∧ b'.Bounded ∧ b'.userExtents = b.userExtents + numExtents ∧
      (∀ k < b.getAllocatedExtents, b'.inst.visible k = b.inst.visible k) ∧
      b'.inst.addressOf = b.inst.addressOf ∧ b'.buffers.Perm b'.bufferSpace := by
  simp only [extend, bind_eq_ok, get_eq_ok, raiseIf_eq_ok] at ok
  obtain ⟨_, _, ⟨-, rfl⟩, _, _, ⟨rfl, rfl⟩, _, _, ⟨unused, rfl⟩, ok⟩ := ok
  obtain ⟨small, fits⟩ := fits
  obtain ⟨size, extents, extent⟩ := bounded.extents_lt
  have buffersLe := bounded.buffers_le
  have positive := bounded.extents_pos
  have boundary := bounded.boundary
  unfold getAllocatedExtents at buffersLe positive
  have difference : int64 (int64 numExtents - int64 b.getTotalBuffers) =
      numExtents - b.allocatedBuffers := by
    unfold getTotalBuffers
    rw [int64_of_lt (x := numExtents) (by omega) (by omega),
      int64_of_lt (x := b.allocatedBuffers) (by omega) (by omega)]
    exact int64_self (by omega) (by omega)
  rw [difference] at ok
  refine ⟨no_acquired owned (not_not.mp unused), ?_⟩
  split_ifs at ok with covered
  · have left : uint64 (int64 b.getTotalBuffers - numExtents) = b.allocatedBuffers - numExtents := by
      unfold getTotalBuffers
      rw [int64_of_lt (by omega) (by omega)]
      have value := uint64_of_fits (x := b.allocatedBuffers - numExtents) (by omega) (by omega)
      omega
    have newUser : b.getAllocatedExtents - (b.allocatedBuffers - numExtents) =
        b.userExtents + numExtents := by
      unfold userExtents getTotalBuffers getAllocatedExtents
      omega
    have start : (b.bufferStartAddress + numExtents * b.getExtentSize) % 2 ^ 64 =
        b.inst.addressOf (b.userExtents + numExtents) := by
      have inside : b.userExtents + numExtents ≤ b.inst.getAllocatedExtents := by
        unfold userExtents getTotalBuffers getAllocatedExtents
        omega
      have bytes := Nat.mul_le_mul_right b.inst.getExtentSize inside
      rw [Nat.mul_comm b.inst.getAllocatedExtents] at bytes
      have range := bounded.wf.range
      have room := bounded.wf.size_le.trans bounded.wf.file_le
      have sum : b.bufferStartAddress + numExtents * b.getExtentSize =
          b.inst.startAddress + (b.userExtents + numExtents) * b.inst.getExtentSize := by
        rw [boundary]
        simp only [RewiredMemory.addressOf, getExtentSize]
        ring
      rw [sum]
      exact Nat.mod_eq_of_lt (by omega)
    rw [left, start] at ok
    obtain rfl := set_eq_ok.mp ok
    refine ⟨⟨bounded.wf, bounded.maxMemory, bounded.extents_pos, ?_, ?_⟩, newUser,
      fun _ _ => rfl, rfl, ?_⟩
    · exact (Nat.sub_le _ _).trans buffersLe
    · exact congrArg b.inst.addressOf newUser.symm
    · change (pushFront b.getExtentSize _ _ []).Perm ((List.range _).map fun k =>
        b.inst.addressOf (b.getAllocatedExtents - (b.allocatedBuffers - numExtents) + k))
      rw [newUser]
      exact Bounded.pushFront_perm _ _ []
  · simp only [bind_eq_ok, modify_eq_ok] at ok
    obtain ⟨_, _, call, rfl⟩ := ok
    obtain ⟨m, extended, rfl⟩ := onInstance_ok call
    have count : ((numExtents : Int) - b.allocatedBuffers).toNat =
        numExtents - b.getTotalBuffers := by
      unfold getTotalBuffers
      omega
    rw [count] at extended
    obtain ⟨wf, grown, -, sameAddress, sameMax, sameVisible⟩ :=
      RewiredMemory.extend_ok bounded.wf fits extended
    unfold getTotalBuffers at grown
    refine ⟨⟨wf, sameMax.trans bounded.maxMemory, ?_, Nat.zero_le _, ?_⟩, ?_, sameVisible,
      sameAddress, ?_⟩
    · change 0 < m.getAllocatedExtents
      omega
    · change m.startAddress + m.getAllocatedMemorySize =
        m.startAddress + (m.getAllocatedExtents - 0) * m.getExtentSize
      rw [Nat.sub_zero, Nat.mul_comm, wf.allocated]
    · change m.getAllocatedExtents - 0 = b.inst.getAllocatedExtents - b.allocatedBuffers + _
      omega
    · simp [bufferSpace]

/-- The last `numExtents` extents of the user space become free buffers. -/
theorem shrink_ok {b b' : BufferedRewiredMemory α} {numExtents : Nat} {u : Unit}
    {acquired : List Nat} (bounded : b.Bounded)
    (owned : (b.buffers ++ acquired).Perm b.bufferSpace)
    (ok : shrink numExtents b = .ok u b') :
    acquired = [] ∧ b'.Bounded ∧ b'.userExtents + numExtents = b.userExtents ∧
      (∀ k < b.getAllocatedExtents, b'.inst.visible k = b.inst.visible k) ∧
      b'.inst.addressOf = b.inst.addressOf ∧ b'.buffers.Perm b'.bufferSpace := by
  simp only [shrink, bind_eq_ok, get_eq_ok, raiseIf_eq_ok, set_eq_ok] at ok
  obtain ⟨_, _, ⟨-, rfl⟩, _, _, ⟨rfl, rfl⟩, _, _, ⟨unused, rfl⟩, _, _, ⟨enough, rfl⟩, rfl⟩ := ok
  have none := no_acquired owned (not_not.mp unused)
  subst none
  have buffersLe := bounded.buffers_le
  have boundary := bounded.boundary
  unfold getTotalBuffers at enough
  have newUser : b.getAllocatedExtents - (b.allocatedBuffers + numExtents) =
      b.userExtents - numExtents := by
    unfold userExtents getTotalBuffers
    omega
  have userLe : numExtents ≤ b.userExtents := by
    unfold userExtents getTotalBuffers
    omega
  -- every address pushed is the address of an extent below the boundary
  have below : ∀ i < b.userExtents, b.bufferStartAddress - (i + 1) * b.getExtentSize =
      b.inst.addressOf (b.userExtents - (i + 1)) := by
    intro i hi
    rw [boundary]
    simp only [RewiredMemory.addressOf, getExtentSize]
    rw [Nat.sub_mul]
    have := Nat.mul_le_mul_right b.inst.getExtentSize (show i + 1 ≤ b.userExtents from hi)
    omega
  have pushed : ∀ count ≤ b.userExtents, ((List.range count).foldl (fun queue i =>
      (b.bufferStartAddress - (i + 1) * b.getExtentSize) :: queue) b.buffers) =
      (List.range count).map (fun k => b.inst.addressOf (b.userExtents - count + k)) ++
        b.buffers := by
    intro count
    induction count with
    | zero => simp
    | succ count ih =>
        intro hcount
        rw [List.range_succ, List.foldl_append, ih (by omega), ← List.range_succ,
          List.range_succ_eq_map]
        simp only [List.foldl_cons, List.foldl_nil, List.map_cons, List.map_map, List.cons_append,
          below count hcount, Nat.add_zero]
        congr 2
        refine List.map_congr_left fun k _ => ?_
        simp only [Function.comp]
        congr 1
        omega
  refine ⟨rfl, ⟨bounded.wf, bounded.maxMemory, bounded.extents_pos, ?_, ?_⟩, ?_, fun _ _ => rfl, rfl,
    ?_⟩
  · change b.allocatedBuffers + numExtents ≤ b.getAllocatedExtents
    omega
  · change b.bufferStartAddress - numExtents * b.getExtentSize = b.inst.addressOf
      (b.getAllocatedExtents - (b.allocatedBuffers + numExtents))
    rw [newUser, boundary]
    simp only [RewiredMemory.addressOf, getExtentSize, Nat.sub_mul]
    have := Nat.mul_le_mul_right b.inst.getExtentSize userLe
    omega
  · change b.getAllocatedExtents - (b.allocatedBuffers + numExtents) + numExtents = _
    omega
  · change (List.foldl _ b.buffers (List.range numExtents)).Perm ((List.range
      (b.allocatedBuffers + numExtents)).map fun k => b.inst.addressOf
        (b.getAllocatedExtents - (b.allocatedBuffers + numExtents) + k))
    rw [pushed numExtents userLe, newUser, Nat.add_comm b.allocatedBuffers, List.range_add,
      List.map_append, List.map_map]
    refine List.Perm.append_left _ ?_
    rw [List.append_nil] at owned
    refine owned.trans (List.Perm.of_eq (List.map_congr_left fun k _ => ?_))
    simp only [Function.comp]
    congr 1
    omega

end BufferedRewiredMemory

/-! ## Clients -/

/-- A memory and the buffers its client has acquired and not yet released. -/
structure Client (α : Type) where
  mem : BufferedRewiredMemory α
  acquired : List Nat

namespace Client

variable {α : Type}

/-- What a client does with its memory. It releases only buffers it holds, into
the user space, and stores only to the user space and to its own buffers. -/
inductive Op (α : Type) where
  | acquireBuffer (growth : Growth α)
  | swapAndRelease (user buffer : Nat) (mmap1 mmap2 : Bool)
  | extend (numExtents : Nat) (growth : Growth α)
  | shrink (numExtents : Nat)
  | store (extent : Nat) (content : α)

/-- The memory right after its construction. -/
def initial (b : BufferedRewiredMemory α) : Client α := ⟨b, []⟩

/-- One operation; `none` when it raises, or is not one the client may do. -/
def step (c : Client α) : Op α → Option (Client α)
  | .acquireBuffer growth =>
      match c.mem.acquireBuffer growth with
      | .ok address mem => some ⟨mem, address :: c.acquired⟩
      | .error _ _ => none
  | .swapAndRelease user buffer mmap1 mmap2 =>
      if user < c.mem.bufferStartAddress ∧ buffer ∈ c.acquired then
        match c.mem.swapAndRelease user buffer mmap1 mmap2 with
        | .ok _ mem => some ⟨mem, c.acquired.erase buffer⟩
        | .error _ _ => none
      else none
  | .extend numExtents growth =>
      match c.mem.extend numExtents growth with
      | .ok _ mem => some ⟨mem, c.acquired⟩
      | .error _ _ => none
  | .shrink numExtents =>
      match c.mem.shrink numExtents with
      | .ok _ mem => some ⟨mem, c.acquired⟩
      | .error _ _ => none
  | .store extent content =>
      if extent < c.mem.userExtents ∨ c.mem.inst.addressOf extent ∈ c.acquired then
        some ⟨{ c.mem with inst := c.mem.inst.store extent content }, c.acquired⟩
      else none

/-- The free buffers and the acquired ones are exactly the extents past the boundary. -/
structure Inv (c : Client α) : Prop where
  bounded : c.mem.Bounded
  owned : (c.mem.buffers ++ c.acquired).Perm c.mem.bufferSpace

/-- What the operations guarantee of the addresses, in every state of a run. -/
structure Separated (c : Client α) : Prop where
  translation : c.mem.inst.translationMap.Perm (List.range c.mem.getAllocatedExtents)
  free_nodup : c.mem.buffers.Nodup
  acquired_nodup : c.acquired.Nodup
  owned : (c.mem.buffers ++ c.acquired).Perm c.mem.bufferSpace
  count : c.mem.bufferSpace.length = c.mem.allocatedBuffers
  start : c.mem.bufferStartAddress = c.mem.inst.addressOf c.mem.userExtents
  finish : c.mem.bufferStartAddress + c.mem.allocatedBuffers * c.mem.getExtentSize =
    c.mem.inst.startAddress + c.mem.getAllocatedMemorySize

/-- The user extents below `bound`, other than those `except` names, show in
`c'` what they showed in `c`. -/
def Unchanged (c c' : Client α) (bound : Nat) (except : Nat → Prop) : Prop :=
  ∀ k < bound, ¬except k → c'.mem.inst.visible k = c.mem.inst.visible k

/-- An operation whose sizes do not wrap around. -/
def Fits (c : Client α) : Op α → Prop
  | .extend numExtents _ => c.mem.Fits numExtents
  | _ => True

/-- No size of the run wraps around. -/
def FitsRun (c : Client α) : List (Op α) → Prop
  | [] => True
  | op :: ops => c.Fits op ∧ ∀ c' ∈ c.step op, c'.FitsRun ops

instance (c : Client α) : (op : Op α) → Decidable (c.Fits op)
  | .extend _ _ => inferInstanceAs (Decidable (_ < _ ∧ _))
  | .acquireBuffer _ => isTrue trivial
  | .swapAndRelease _ _ _ _ => isTrue trivial
  | .shrink _ => isTrue trivial
  | .store _ _ => isTrue trivial

instance (c : Client α) (ops : List (Op α)) : Decidable (c.FitsRun ops) :=
  decideRun c ops
where
  decideRun (c : Client α) : (ops : List (Op α)) → Decidable (c.FitsRun ops)
    | [] => isTrue trivial
    | op :: ops =>
      have := fun c' => decideRun c' ops
      inferInstanceAs (Decidable (c.Fits op ∧ ∀ c' ∈ c.step op, c'.FitsRun ops))

/-- What each operation does to the boundary and to the visible contents. -/
def Effect (c : Client α) : Op α → Client α → Prop
  | .acquireBuffer _, c' =>
      c'.mem.userExtents = c.mem.userExtents ∧
      (∃ j, c'.mem.userExtents ≤ j ∧ j < c'.mem.getAllocatedExtents ∧
        c'.mem.inst.addressOf j ∉ c.acquired ∧
        c'.acquired = c'.mem.inst.addressOf j :: c.acquired) ∧
      Unchanged c c' c.mem.userExtents fun _ => False
  | .swapAndRelease user buffer _ _, c' =>
      c'.mem.userExtents = c.mem.userExtents ∧
      buffer ∈ c'.mem.buffers ∧ buffer ∉ c'.acquired ∧
      ∃ i < c.mem.userExtents, ∃ j, user = c.mem.inst.addressOf i ∧
        buffer = c.mem.inst.addressOf j ∧
        c'.mem.inst.visible i = c.mem.inst.visible j ∧
        Unchanged c c' c.mem.userExtents fun k => k = i
  | .extend numExtents _, c' =>
      c'.mem.userExtents = c.mem.userExtents + numExtents ∧
      Unchanged c c' c.mem.userExtents fun _ => False
  | .shrink numExtents, c' =>
      c'.mem.userExtents + numExtents = c.mem.userExtents ∧
      Unchanged c c' c'.mem.userExtents fun _ => False
  | .store extent content, c' =>
      c'.mem.userExtents = c.mem.userExtents ∧
      c'.mem.inst.visible extent = some content ∧
      Unchanged c c' c.mem.userExtents fun k => k = extent

theorem Inv.nodup {c : Client α} (inv : c.Inv) : (c.mem.buffers ++ c.acquired).Nodup :=
  inv.owned.nodup_iff.mpr inv.bounded.nodup_bufferSpace

theorem Inv.separated {c : Client α} (inv : c.Inv) : c.Separated := by
  have nodup := List.nodup_append.mp inv.nodup
  refine ⟨inv.bounded.wf.perm, nodup.1, nodup.2.1, inv.owned, ?_, inv.bounded.boundary, ?_⟩
  · simp [BufferedRewiredMemory.bufferSpace]
  · have buffersLe := inv.bounded.buffers_le
    rw [inv.bounded.boundary]
    simp only [RewiredMemory.addressOf, BufferedRewiredMemory.userExtents,
      BufferedRewiredMemory.getExtentSize, BufferedRewiredMemory.getAllocatedMemorySize,
      BufferedRewiredMemory.getTotalBuffers, inv.bounded.wf.allocated]
    change _ ≤ c.mem.inst.getAllocatedExtents at buffersLe
    change _ + (c.mem.inst.getAllocatedExtents - _) * _ + _ = _
    rw [Nat.add_assoc, ← Nat.add_mul, Nat.sub_add_cancel buffersLe, Nat.mul_comm]

theorem inv_initial {pageSize pagesPerExtent numExtents startAddress : Nat} {file : Nat → α}
    {b : BufferedRewiredMemory α} (page_pos : 0 < pageSize)
    (sized : pageSize * pagesPerExtent * numExtents < 2 ^ 64)
    (created : BufferedRewiredMemory.create pageSize pagesPerExtent numExtents startAddress
      file = .ok b) : (initial b).Inv := by
  unfold BufferedRewiredMemory.create at created
  cases h : RewiredMemory.create pageSize pagesPerExtent numExtents startAddress
    BufferedRewiredMemory.defaultMaxMemory file with
  | error e => simp [h, bind, Except.bind] at created
  | ok m =>
      simp only [h, bind, Except.bind, pure, Except.pure, Except.ok.injEq] at created
      subst created
      obtain ⟨pages, some, translationMap, -, maxMemory, -⟩ := RewiredMemory.create_fields h
      have extents : 0 < m.getAllocatedExtents := by
        rwa [RewiredMemory.getAllocatedExtents, translationMap, List.length_range]
      have extent : pageSize * pagesPerExtent % 2 ^ 64 = pageSize * pagesPerExtent :=
        Nat.mod_eq_of_lt (lt_of_le_of_lt (Nat.le_mul_of_pos_right _ some) sized)
      have wf := RewiredMemory.WF.create (by rw [extent]; exact Nat.mul_pos page_pos pages)
        (by rw [extent]; exact sized) h
      refine ⟨⟨wf, maxMemory, extents, Nat.zero_le _, ?_⟩, ?_⟩
      · change m.startAddress + m.getAllocatedMemorySize =
          m.startAddress + (m.getAllocatedExtents - 0) * m.getExtentSize
        rw [Nat.sub_zero, Nat.mul_comm, wf.allocated]
      · simp [initial, BufferedRewiredMemory.bufferSpace]

/-- One operation keeps the two spaces apart and has its effect, one case for
each operation. -/
theorem inv_step {c c' : Client α} {op : Op α} (inv : c.Inv) (fits : c.Fits op)
    (stepped : c.step op = some c') : c'.Inv ∧ c.Effect op c' := by
  have below : ∀ k < c.mem.userExtents, k < c.mem.getAllocatedExtents :=
    fun k less => lt_of_lt_of_le less (Nat.sub_le _ _)
  cases op with
  | acquireBuffer growth =>
      simp only [step] at stepped
      split at stepped
      next address mem ok =>
        obtain rfl := Option.some.inj stepped
        obtain ⟨bounded, sameUser, sameVisible, sameAddress, owned⟩ :=
          BufferedRewiredMemory.acquireBuffer_ok inv.bounded inv.owned ok
        have inv' : Inv ⟨mem, address :: c.acquired⟩ := ⟨bounded, owned⟩
        have inSpace : address ∈ mem.bufferSpace := owned.mem_iff.mp (by simp)
        obtain ⟨k, hk, rfl⟩ := List.mem_map.mp inSpace
        have fresh := (List.nodup_cons.mp (List.nodup_append.mp inv'.nodup).2.1).1
        refine ⟨inv', sameUser, ⟨_, ?_, ?_, fresh, rfl⟩, fun k less _ => sameVisible k (below k less)⟩
        · exact (bounded.mem_bufferSpace.mp inSpace).1
        · exact (bounded.mem_bufferSpace.mp inSpace).2
      next => cases stepped
  | swapAndRelease user buffer mmap1 mmap2 =>
      simp only [step] at stepped
      split_ifs at stepped with allowed
      obtain ⟨inUser, held⟩ := allowed
      split at stepped
      next u mem ok =>
        obtain rfl := Option.some.inj stepped
        obtain ⟨bounded, sameUser, sameAddress, sameSpace, released, i, hi, j, hj, rfl, rfl,
          shown, others⟩ := BufferedRewiredMemory.swapAndRelease_ok inv.bounded inUser ok
        have inv' : Inv ⟨mem, c.acquired.erase (c.mem.inst.addressOf j)⟩ := by
          refine ⟨bounded, ?_⟩
          rw [sameSpace, released, List.append_assoc]
          refine List.Perm.trans (List.Perm.append_left _ ?_) inv.owned
          exact (List.perm_cons_erase held).symm
        have acquiredNodup := (List.nodup_append.mp inv.nodup).2.1
        refine ⟨inv', sameUser, ?_, ?_, i, hi, j, rfl, rfl, shown, ?_⟩
        · simp [released]
        · exact fun still => (acquiredNodup.mem_erase_iff.mp still).1 rfl
        · intro k hk notI
          exact others k notI (by omega)
      next => cases stepped
  | extend numExtents growth =>
      simp only [step] at stepped
      split at stepped
      next u mem ok =>
        obtain rfl := Option.some.inj stepped
        obtain ⟨none, bounded, grown, sameVisible, sameAddress, owned⟩ :=
          BufferedRewiredMemory.extend_ok inv.bounded fits inv.owned ok
        refine ⟨⟨bounded, ?_⟩, grown, fun k less _ => sameVisible k (below k less)⟩
        simpa [none] using owned
      next => cases stepped
  | shrink numExtents =>
      simp only [step] at stepped
      split at stepped
      next u mem ok =>
        obtain rfl := Option.some.inj stepped
        obtain ⟨none, bounded, shrunk, sameVisible, sameAddress, owned⟩ :=
          BufferedRewiredMemory.shrink_ok inv.bounded inv.owned ok
        have less' : mem.userExtents ≤ c.mem.userExtents := by omega
        refine ⟨⟨bounded, ?_⟩, shrunk, fun k less _ => sameVisible k (below k (less.trans_le less'))⟩
        simpa [none] using owned
      next => cases stepped
  | store extent content =>
      simp only [step] at stepped
      split_ifs at stepped with allowed
      obtain rfl := Option.some.inj stepped
      have wf := inv.bounded.wf
      have inside : extent < c.mem.inst.getAllocatedExtents := by
        rcases allowed with user | held
        · exact below extent user
        · have space := inv.owned.mem_iff.mp (List.mem_append_right _ held)
          exact (inv.bounded.mem_bufferSpace.mp space).2
      refine ⟨⟨⟨wf.store extent content, inv.bounded.maxMemory, inv.bounded.extents_pos,
        inv.bounded.buffers_le, inv.bounded.boundary⟩, inv.owned⟩, rfl, ?_, ?_⟩
      · change (c.mem.inst.store extent content).visible extent = some content
        rw [wf.visible_store inside, if_pos rfl]
      · intro k _ other
        change (c.mem.inst.store extent content).visible k = _
        rw [wf.visible_store inside, if_neg other]

theorem inv_run {c d : Client α} {ops : List (Op α)} (inv : c.Inv) (fits : c.FitsRun ops)
    (run : runFrom step c ops = some d) : d.Inv := by
  induction ops generalizing c with
  | nil =>
      cases run
      exact inv
  | cons op ops ih =>
      obtain ⟨c', stepped, rest⟩ := runFrom_cons_eq_some.mp run
      exact ih (inv_step inv fits.1 stepped).1 (fits.2 c' stepped) rest

/-- **The user space and the buffers stay apart where no size wraps around.** From the
construction, over every run of operations that raise no error, the addresses are
separated in the state reached, and every further operation has its effect and nothing
else. -/
theorem bufferedRewiredMemory_separated {pageSize pagesPerExtent numExtents startAddress : Nat}
    {file : Nat → α} {b : BufferedRewiredMemory α} {ops : List (Op α)} {c : Client α}
    (page_pos : 0 < pageSize) (sized : pageSize * pagesPerExtent * numExtents < 2 ^ 64)
    (created : BufferedRewiredMemory.create pageSize pagesPerExtent numExtents startAddress
      file = .ok b)
    (fits : (initial b).FitsRun ops) (run : runFrom step (initial b) ops = some c) :
    c.Separated ∧ ∀ op c', c.Fits op → c.step op = some c' → c'.Separated ∧ c.Effect op c' := by
  have inv := inv_run (inv_initial page_pos sized created) fits run
  refine ⟨inv.separated, fun op c' fits stepped => ?_⟩
  obtain ⟨inv', effect⟩ := inv_step inv fits stepped
  exact ⟨inv'.separated, effect⟩

/-- The system calls succeed, and new extents hold zeros. -/
def zeros : Growth Nat := ⟨true, 2 ^ 32, fun _ => 0⟩

/-- Two extents of one page: a buffer is acquired at the end of the range, filled
and swapped with the first extent, and the user space grows over two of the four buffers. -/
theorem bufferedRewiredMemory_separated_swap :
    ∃ b c, BufferedRewiredMemory.create 4096 1 2 8192 (fun _ => 0) = .ok b ∧
      runFrom step (initial b) [.acquireBuffer zeros, .store 2 7,
        .swapAndRelease 8192 16384 true true, .extend 2 zeros] = some c ∧
      c.Separated ∧ c.mem.inst.visible 0 = some 7 ∧ c.mem.userExtents = 4 := by
  have ⟨b, created, fits⟩ : ∃ b, BufferedRewiredMemory.create 4096 1 2 8192 (fun _ => 0) = .ok b ∧
      (initial b).FitsRun [.acquireBuffer zeros, .store 2 7, .swapAndRelease 8192 16384 true true,
        .extend 2 zeros] := ⟨_, rfl, by decide +kernel⟩
  have ran : (runFrom step (initial b) [.acquireBuffer zeros, .store 2 7,
      .swapAndRelease 8192 16384 true true, .extend 2 zeros]).map (fun c =>
        (c.mem.inst.visible 0, c.mem.userExtents)) = some (some 7, 4) := by
    cases created
    decide +kernel
  obtain ⟨c, run, shown⟩ := Option.map_eq_some_iff.mp ran
  rw [Prod.mk.injEq] at shown
  exact ⟨b, c, created, run,
    (bufferedRewiredMemory_separated (by decide) (by decide) created fits run).1, shown⟩

/-- An extension by `2 ^ 64 - 2` extents raises no error, and moves the boundary below the
memory. -/
theorem bufferedRewiredMemory_separated_fails :
    ∃ b c, BufferedRewiredMemory.create 4096 1 1 8192 (fun _ => 0) = .ok b ∧
      runFrom step (initial b) [.extend (2 ^ 64 - 2) zeros] = some c ∧ ¬c.Separated := by
  have ⟨b, created⟩ : ∃ b,
      BufferedRewiredMemory.create 4096 1 1 8192 (fun _ => 0) = .ok b := ⟨_, rfl⟩
  have ran : (runFrom step (initial b) [.extend (2 ^ 64 - 2) zeros]).map (fun c =>
      (c.mem.bufferStartAddress, c.mem.inst.startAddress)) = some (4096, 8192) := by
    cases created
    decide +kernel
  obtain ⟨c, run, shown⟩ := Option.map_eq_some_iff.mp ran
  rw [Prod.mk.injEq] at shown
  refine ⟨b, c, created, run, fun separated => ?_⟩
  have start := separated.start
  rw [RewiredMemory.addressOf, shown.1, shown.2] at start
  omega

end Client

end Rma
