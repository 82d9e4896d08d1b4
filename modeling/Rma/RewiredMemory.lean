import Rma.Base.Exec
import Rma.Base.Runs

/-!
# Rewired memory

`RewiredMemory` reserves a range of virtual memory and backs it by a file; the
page table of the range can be changed one extent at a time, so that two virtual
extents exchange their physical extents without copying a byte.

The model keeps the fields of the class and what the kernel holds for it: `mapping`,
the page table of the reserved range, and the backing file with its size and its
content, `physical`, extent by extent. The content of an extent is any type `α`; a
load past the end of the file sees none. Sizes are computed in 64 bits. Each system
call takes effect or fails as an argument says; an operation that raises keeps the
state it had reached.
-/

namespace Rma

open Base

/-- The errors raised by the two rewired memory classes, one for each message. -/
inductive RewiredMemoryException where
  | invalidPagesPerExtent
  | invalidNumExtents
  | addressNotAligned (address : Nat)
  | addressNotMapped (address : Nat)
  | sameAddress (address : Nat)
  | firstRewiringFailed (vpage : Nat)
  | secondRewiringFailed (vpage : Nat)
  | limitReached (allocated requested : Nat)
  | cannotAllocatePhysical (bytes : Nat)
  | cannotAllocateVirtual (bytes : Nat)
  | badAlloc
  | bothBuffers (addr1 addr2 : Nat)
  | noBuffer (addr1 addr2 : Nat)
  | zeroExtents
  | buffersInUse (used total : Nat)
  | releasingTooMuch
  deriving DecidableEq, Repr

/-- The fields of `RewiredMemory`, with the page table of its range and the size and
content of its file. Addresses and sizes are in bytes. -/
structure RewiredMemory (α : Type) where
  pageSize : Nat
  numPagesPerExtent : Nat
  startAddress : Nat
  translationMap : List Nat
  maxMemory : Nat
  mapping : Nat → Nat
  fileSize : Nat
  physical : Nat → α

/-- What the system does for an extension: whether `ftruncate` succeeds, how many entries of
the translation map there is memory for, and what the file holds where it was cut or grown. -/
structure Growth (α : Type) where
  ftruncate : Bool
  entries : Nat
  content : Nat → α

/-- A method of `RewiredMemory`. -/
abbrev RewiredM (α : Type) := EStateM RewiredMemoryException (RewiredMemory α)

namespace RewiredMemory

variable {α : Type}

def getExtentSize (m : RewiredMemory α) : Nat := m.pageSize * m.numPagesPerExtent % 2 ^ 64

def getAllocatedExtents (m : RewiredMemory α) : Nat := m.translationMap.length

def getAllocatedMemorySize (m : RewiredMemory α) : Nat :=
  m.getExtentSize * m.getAllocatedExtents % 2 ^ 64

def getMaxMemory (m : RewiredMemory α) : Nat := m.maxMemory

/-- What a load of a physical extent sees: a page past the end of the file raises a
`SIGBUS`. -/
def load (m : RewiredMemory α) (ppage : Nat) : Option α :=
  if (ppage + 1) * m.getExtentSize ≤ m.fileSize then some (m.physical ppage) else none

/-- What a load from the virtual extent `i` sees. -/
def visible (m : RewiredMemory α) (i : Nat) : Option α := m.load (m.mapping i)

/-- A store to the virtual extent `i`. -/
def store (m : RewiredMemory α) (i : Nat) (content : α) : RewiredMemory α :=
  { m with physical := Function.update m.physical (m.mapping i) content }

/-- Set the size of the file. The extents that it held in full and still holds are kept. -/
def truncate (m : RewiredMemory α) (size : Nat) (content : Nat → α) : RewiredMemory α :=
  { m with
    fileSize := size
    physical := fun p =>
      if (p + 1) * m.getExtentSize ≤ min m.fileSize size then m.physical p else content p }

/-- The constructor: the file is truncated to `numExtents` extents, the range is
mapped onto the file from its start, and the translation map is the identity. The range
lies in the address space. -/
def create (pageSize pagesPerExtent numExtents startAddress maxMemory : Nat) (file : Nat → α) :
    Except RewiredMemoryException (RewiredMemory α) :=
  let sizePhysicalMemory := pageSize * pagesPerExtent % 2 ^ 64 * numExtents % 2 ^ 64
  if pagesPerExtent = 0 then
    .error .invalidPagesPerExtent
  else if numExtents = 0 then
    .error .invalidNumExtents
  else if sizePhysicalMemory > maxMemory then
    .error (.limitReached 0 sizePhysicalMemory)
  else if startAddress + maxMemory ≥ 2 ^ 64 then
    .error (.cannotAllocateVirtual maxMemory)
  else
    .ok {
      pageSize := pageSize
      numPagesPerExtent := pagesPerExtent
      startAddress := startAddress
      translationMap := List.range numExtents
      maxMemory := maxMemory
      mapping := id
      fileSize := sizePhysicalMemory
      physical := file }

/-- The difference of the two addresses is taken modulo `2 ^ 64`, as in the source. No address
is valid where the size of an extent wrapped to 0, and the remainder divides by 0. -/
def validateAddress (address : Nat) : RewiredM α Unit := do
  let m ← get
  raiseIf ((address + 2 ^ 64 - m.startAddress) % 2 ^ 64 % m.getExtentSize ≠ 0)
    (.addressNotAligned address)
  raiseIf (address < m.startAddress ∨ address ≥ m.startAddress + m.getAllocatedMemorySize)
    (.addressNotMapped address)

/-- Exchange the physical extents of two virtual extents, by two calls of
`mmap` with `MAP_FIXED`; `mmap1` and `mmap2` say whether they succeed. -/
def swap (addr1 addr2 : Nat) (mmap1 mmap2 : Bool) : RewiredM α Unit := do
  validateAddress addr1
  validateAddress addr2
  raiseIf (addr1 = addr2) (.sameAddress addr1)
  let m ← get
  let trmapOff1 := (addr1 - m.startAddress) / m.getExtentSize
  let ppage1 := m.translationMap.getD trmapOff1 0
  let trmapOff2 := (addr2 - m.startAddress) / m.getExtentSize
  let ppage2 := m.translationMap.getD trmapOff2 0
  -- set ppage2 to vpage1
  raiseIf (mmap1 = false) (.firstRewiringFailed addr1)
  modify fun m => { m with mapping := Function.update m.mapping trmapOff1 ppage2 }
  -- set ppage1 to vpage2
  raiseIf (mmap2 = false) (.secondRewiringFailed addr2)
  modify fun m => { m with mapping := Function.update m.mapping trmapOff2 ppage1 }
  modify fun m =>
    { m with translationMap := (m.translationMap.set trmapOff1 ppage2).set trmapOff2 ppage1 }

/-- The size of the file with `numExtents` extents more. -/
def memoryInBytes (m : RewiredMemory α) (numExtents : Nat) : Nat :=
  (m.getAllocatedMemorySize + numExtents * m.getExtentSize % 2 ^ 64) % 2 ^ 64

/-- Whether there is memory for as many entries as `reserve` is asked for. -/
def Reserves (m : RewiredMemory α) (numExtents : Nat) (growth : Growth α) : Prop :=
  (m.getAllocatedExtents + numExtents) % 2 ^ 64 ≤ growth.entries

instance (m : RewiredMemory α) (numExtents : Nat) (growth : Growth α) :
    Decidable (m.Reserves numExtents growth) := inferInstanceAs (Decidable (_ ≤ _))

/-- Grow the file by `numExtents` extents, registered in the translation map as
themselves. -/
def extend (numExtents : Nat) (growth : Growth α) : RewiredM α Unit :=
  if numExtents = 0 then pure () else do
    let m ← get
    let memoryInBytes := m.memoryInBytes numExtents
    raiseIf (memoryInBytes > m.getMaxMemory)
      (.limitReached m.getAllocatedMemorySize memoryInBytes)
    raiseIf (growth.ftruncate = false) (.cannotAllocatePhysical memoryInBytes)
    modify fun m => m.truncate memoryInBytes growth.content
    let startFd := m.translationMap.length
    raiseIf (¬m.Reserves numExtents growth) .badAlloc
    -- where `reserve` is asked for too few, entries are added until there is no memory for one
    let pushed := min numExtents (growth.entries - startFd)
    modify fun m => { m with translationMap :=
      m.translationMap ++ (List.range pushed).map (startFd + ·) }
    raiseIf (pushed < numExtents) .badAlloc

/-! ## The virtual extents of the range -/

/-- The address of the virtual extent `i`. -/
def addressOf (m : RewiredMemory α) (i : Nat) : Nat := m.startAddress + i * m.getExtentSize

/-- What every instance keeps: the extents are not empty, they are in the file and the
file fits the reserved range, the translation map lists every physical extent once, and
the page table agrees with it; past the file, pages are mapped where they started. -/
structure WF (m : RewiredMemory α) : Prop where
  extent_pos : 0 < m.getExtentSize
  size_le : m.getExtentSize * m.getAllocatedExtents ≤ m.fileSize
  file_le : m.fileSize ≤ m.maxMemory
  range : m.startAddress + m.maxMemory < 2 ^ 64
  perm : m.translationMap.Perm (List.range m.getAllocatedExtents)
  mapping_eq : ∀ i (h : i < m.translationMap.length), m.mapping i = m.translationMap[i]
  mapping_past : ∀ i, m.translationMap.length ≤ i → m.mapping i = i

theorem WF.allocated {m : RewiredMemory α} (wf : m.WF) :
    m.getAllocatedMemorySize = m.getExtentSize * m.getAllocatedExtents := by
  have size := wf.size_le
  have file := wf.file_le
  have range := wf.range
  exact Nat.mod_eq_of_lt (by omega)

theorem WF.nodup {m : RewiredMemory α} (wf : m.WF) : m.translationMap.Nodup :=
  wf.perm.nodup_iff.mpr List.nodup_range

theorem WF.mapping_lt {m : RewiredMemory α} (wf : m.WF) {i : Nat}
    (h : i < m.getAllocatedExtents) : m.mapping i < m.getAllocatedExtents := by
  rw [wf.mapping_eq i h]
  exact List.mem_range.mp (wf.perm.mem_iff.mp (List.getElem_mem h))

/-- The extents of the file are seen. -/
theorem WF.in_file {m : RewiredMemory α} (wf : m.WF) {p : Nat} (h : p < m.getAllocatedExtents) :
    (p + 1) * m.getExtentSize ≤ m.fileSize := by
  refine le_trans ?_ wf.size_le
  rw [Nat.mul_comm]
  exact Nat.mul_le_mul_left _ h

theorem WF.visible_eq {m : RewiredMemory α} (wf : m.WF) {i : Nat}
    (h : i < m.getAllocatedExtents) : m.visible i = some (m.physical (m.mapping i)) :=
  if_pos (wf.in_file (wf.mapping_lt h))

/-- No two virtual extents show the same physical extent. -/
theorem WF.mapping_injective {m : RewiredMemory α} (wf : m.WF) :
    Function.Injective m.mapping := by
  intro i j same
  rcases Nat.lt_or_ge i m.translationMap.length with hi | hi <;>
    rcases Nat.lt_or_ge j m.translationMap.length with hj | hj
  · rw [wf.mapping_eq i hi, wf.mapping_eq j hj] at same
    exact (List.Nodup.getElem_inj_iff wf.nodup).mp same
  · have below := wf.mapping_lt hi
    rw [same, wf.mapping_past j hj] at below
    exact absurd below (by simpa [getAllocatedExtents] using hj)
  · have below := wf.mapping_lt hj
    rw [← same, wf.mapping_past i hi] at below
    exact absurd below (by simpa [getAllocatedExtents] using hi)
  · rwa [wf.mapping_past i hi, wf.mapping_past j hj] at same

theorem WF.address_inj {m : RewiredMemory α} (wf : m.WF) {i j : Nat} :
    m.addressOf i = m.addressOf j ↔ i = j := by
  simp [addressOf, wf.extent_pos.ne']

theorem WF.address_lt_iff {m : RewiredMemory α} (wf : m.WF) {i j : Nat} :
    m.addressOf i < m.addressOf j ↔ i < j := by
  simp [addressOf, Nat.mul_lt_mul_right wf.extent_pos]

@[simp] theorem index_addressOf (m : RewiredMemory α) (pos : 0 < m.getExtentSize) (i : Nat) :
    (m.addressOf i - m.startAddress) / m.getExtentSize = i := by
  simp [addressOf, Nat.mul_div_cancel _ pos]

/-- An instance whose extents are not empty, and fit in 64 bits. -/
theorem WF.create {pageSize pagesPerExtent numExtents startAddress maxMemory : Nat}
    {file : Nat → α} {m : RewiredMemory α} (extent_pos : 0 < pageSize * pagesPerExtent % 2 ^ 64)
    (sized : pageSize * pagesPerExtent % 2 ^ 64 * numExtents < 2 ^ 64)
    (created : RewiredMemory.create pageSize pagesPerExtent numExtents startAddress maxMemory
      file = .ok m) : m.WF := by
  unfold RewiredMemory.create at created
  simp only at created
  split_ifs at created with noPages noExtents tooBig past
  cases created
  rw [Nat.mod_eq_of_lt sized] at tooBig
  refine ⟨extent_pos, ?_, ?_, not_le.mp past, ?_, ?_, ?_⟩
  · change pageSize * pagesPerExtent % 2 ^ 64 * (List.range numExtents).length ≤
      pageSize * pagesPerExtent % 2 ^ 64 * numExtents % 2 ^ 64
    rw [Nat.mod_eq_of_lt sized, List.length_range]
  · change pageSize * pagesPerExtent % 2 ^ 64 * numExtents % 2 ^ 64 ≤ maxMemory
    rw [Nat.mod_eq_of_lt sized]
    exact not_lt.mp tooBig
  · simp [getAllocatedExtents]
  · intro i h
    simp
  · intro i _
    rfl

theorem create_fields {pageSize pagesPerExtent numExtents startAddress maxMemory : Nat}
    {file : Nat → α} {m : RewiredMemory α}
    (created : RewiredMemory.create pageSize pagesPerExtent numExtents startAddress maxMemory
      file = .ok m) :
    0 < pagesPerExtent ∧ 0 < numExtents ∧ m.translationMap = List.range numExtents ∧
      m.getExtentSize = pageSize * pagesPerExtent % 2 ^ 64 ∧ m.maxMemory = maxMemory ∧
      m.mapping = id ∧ m.fileSize = m.getExtentSize * numExtents % 2 ^ 64 := by
  unfold RewiredMemory.create at created
  simp only at created
  split_ifs at created with noPages noExtents
  cases created
  exact ⟨Nat.pos_of_ne_zero noPages, Nat.pos_of_ne_zero noExtents, rfl, rfl, rfl, rfl, rfl⟩

/-! ## What a successful call did -/

/-- A validated address is the address of an allocated extent. -/
theorem validateAddress_ok {m m' : RewiredMemory α} {address : Nat} {u : Unit} (wf : m.WF)
    (ok : validateAddress address m = .ok u m') :
    m' = m ∧ ∃ i < m.getAllocatedExtents, address = m.addressOf i := by
  simp only [validateAddress, bind_eq_ok, get_eq_ok, raiseIf_eq_ok] at ok
  obtain ⟨_, _, ⟨rfl, rfl⟩, _, _, ⟨aligned, rfl⟩, inRange, rfl⟩ := ok
  refine ⟨rfl, (address - m.startAddress) / m.getExtentSize, ?_, ?_⟩
  all_goals
    have lower : m.startAddress ≤ address := by omega
    have upper : address - m.startAddress < m.getExtentSize * m.getAllocatedExtents := by
      rw [← wf.allocated]
      omega
    have size := wf.size_le
    have file := wf.file_le
    have bound := wf.range
  · exact Nat.div_lt_of_lt_mul upper
  · have wrapped : (address + 2 ^ 64 - m.startAddress) % 2 ^ 64 = address - m.startAddress := by
      omega
    rw [wrapped, not_not] at aligned
    have whole := Nat.div_mul_cancel (Nat.dvd_of_mod_eq_zero aligned)
    unfold addressOf
    omega

/-- A successful swap exchanges the entries of two distinct allocated extents,
in the translation map and in the page table alike. -/
theorem swap_ok {m m' : RewiredMemory α} {addr1 addr2 : Nat} {mmap1 mmap2 : Bool} {u : Unit}
    (wf : m.WF) (ok : swap addr1 addr2 mmap1 mmap2 m = .ok u m') :
    ∃ i < m.getAllocatedExtents, ∃ j < m.getAllocatedExtents, i ≠ j ∧
      addr1 = m.addressOf i ∧ addr2 = m.addressOf j ∧
      m' = { m with
        mapping := Function.update (Function.update m.mapping i (m.mapping j)) j (m.mapping i)
        translationMap := (m.translationMap.set i (m.mapping j)).set j (m.mapping i) } := by
  simp only [swap, bind_eq_ok, get_eq_ok, raiseIf_eq_ok, modify_eq_ok] at ok
  obtain ⟨_, m₁, valid1, _, m₂, valid2, _, _, ⟨distinct, rfl⟩, _, _, ⟨rfl, rfl⟩,
    _, _, ⟨-, rfl⟩, _, _, rfl, _, _, ⟨-, rfl⟩, _, _, rfl, rfl⟩ := ok
  obtain ⟨rfl, i, hi, rfl⟩ := validateAddress_ok wf valid1
  obtain ⟨rfl, j, hj, rfl⟩ := validateAddress_ok wf valid2
  refine ⟨i, hi, j, hj, fun same => distinct (by rw [same]), rfl, rfl, ?_⟩
  unfold getAllocatedExtents at hi hj
  simp [wf.extent_pos, hi, hj, wf.mapping_eq i hi, wf.mapping_eq j hj]

/-- The bytes that an extension asks for, with those allocated, fit in 64 bits. -/
def Fits (m : RewiredMemory α) (numExtents : Nat) : Prop :=
  m.getAllocatedMemorySize + numExtents * m.getExtentSize < 2 ^ 64

instance (m : RewiredMemory α) (numExtents : Nat) : Decidable (m.Fits numExtents) :=
  inferInstanceAs (Decidable (_ < _))

/-- The bytes of an extension, where they fit. -/
theorem WF.memoryInBytes_eq {m : RewiredMemory α} (wf : m.WF) {numExtents : Nat}
    (fits : m.Fits numExtents) :
    m.memoryInBytes numExtents = m.getExtentSize * (m.getAllocatedExtents + numExtents) := by
  unfold Fits at fits
  unfold memoryInBytes
  have added : numExtents * m.getExtentSize < 2 ^ 64 := by omega
  rw [Nat.mod_eq_of_lt added, Nat.mod_eq_of_lt fits, wf.allocated, Nat.mul_add,
    Nat.mul_comm numExtents]

/-- A file of another size that still holds the allocated extents. -/
theorem WF.truncate {m : RewiredMemory α} (wf : m.WF) {size : Nat} (content : Nat → α)
    (lower : m.getExtentSize * m.getAllocatedExtents ≤ size) (upper : size ≤ m.maxMemory) :
    (m.truncate size content).WF :=
  ⟨wf.extent_pos, lower, upper, wf.range, wf.perm, wf.mapping_eq, wf.mapping_past⟩

theorem WF.visible_truncate {m : RewiredMemory α} (wf : m.WF) {size : Nat} {content : Nat → α}
    (lower : m.getExtentSize * m.getAllocatedExtents ≤ size) (upper : size ≤ m.maxMemory) {i : Nat}
    (h : i < m.getAllocatedExtents) : (m.truncate size content).visible i = m.visible i := by
  have kept : (m.mapping i + 1) * m.getExtentSize ≤ min m.fileSize size := by
    rw [le_min_iff]
    refine ⟨wf.in_file (wf.mapping_lt h), le_trans ?_ lower⟩
    rw [Nat.mul_comm]
    exact Nat.mul_le_mul_left _ (wf.mapping_lt h)
  rw [(wf.truncate content lower upper).visible_eq h, wf.visible_eq h]
  exact congrArg some (if_pos kept)

/-- A successful extension appends the next physical extents to the translation
map, within the reserved range. -/
theorem extend_ok {m m' : RewiredMemory α} {numExtents : Nat} {growth : Growth α} {u : Unit}
    (wf : m.WF) (fits : m.Fits numExtents) (ok : extend numExtents growth m = .ok u m') :
    m'.WF ∧ m'.getAllocatedExtents = m.getAllocatedExtents + numExtents ∧
      m'.getExtentSize = m.getExtentSize ∧ m'.addressOf = m.addressOf ∧
      m'.maxMemory = m.maxMemory ∧ ∀ i < m.getAllocatedExtents, m'.visible i = m.visible i := by
  unfold extend at ok
  split_ifs at ok with none
  · rw [pure_eq_ok] at ok
    obtain ⟨-, rfl⟩ := ok
    exact ⟨wf, none ▸ rfl, rfl, rfl, rfl, fun _ _ => rfl⟩
  · simp only [bind_eq_ok, get_eq_ok, raiseIf_eq_ok, modify_eq_ok] at ok
    obtain ⟨_, _, ⟨rfl, rfl⟩, _, _, ⟨room, rfl⟩, _, _, ⟨-, rfl⟩, _, _, rfl, _, _, ⟨-, rfl⟩,
      _, _, rfl, pushed, rfl⟩ := ok
    have all : min numExtents (growth.entries - m.translationMap.length) = numExtents := by
      omega
    rw [all]
    rw [wf.memoryInBytes_eq fits] at room ⊢
    have lower : m.getExtentSize * m.getAllocatedExtents ≤
        m.getExtentSize * (m.getAllocatedExtents + numExtents) :=
      Nat.mul_le_mul_left _ (Nat.le_add_right _ _)
    have kept := wf.truncate growth.content lower (not_lt.mp room)
    have length : (m.translationMap ++ (List.range numExtents).map
        (m.translationMap.length + ·)).length = m.getAllocatedExtents + numExtents := by
      simp [getAllocatedExtents]
    have appended : WF { m.truncate (m.getExtentSize * (m.getAllocatedExtents + numExtents))
        growth.content with translationMap :=
          m.translationMap ++ (List.range numExtents).map (m.translationMap.length + ·) } := by
      refine ⟨wf.extent_pos, ?_, kept.file_le, wf.range, ?_, ?_, ?_⟩
      · exact (congrArg (m.getExtentSize * ·) length).le
      · change List.Perm _ (List.range (List.length _))
        rw [length, getAllocatedExtents, List.range_add]
        exact wf.perm.append_right _
      · intro k hk
        rcases Nat.lt_or_ge k m.translationMap.length with old | new
        · exact (wf.mapping_eq k old).trans (List.getElem_append_left old).symm
        · rw [List.getElem_append_right new]
          refine (wf.mapping_past k new).trans ?_
          simp
          omega
      · intro k hk
        simp only [List.length_append] at hk
        exact wf.mapping_past k (by omega)
    refine ⟨appended, length, rfl, rfl, rfl, fun i h => ?_⟩
    exact (wf.visible_truncate lower (not_lt.mp room) h)

/-- A swap moves no address, and exchanges the contents of two extents. -/
theorem swap_frame {m m' : RewiredMemory α} {addr1 addr2 : Nat} {mmap1 mmap2 : Bool} {u : Unit}
    (wf : m.WF) (ok : swap addr1 addr2 mmap1 mmap2 m = .ok u m') :
    ∃ i < m.getAllocatedExtents, ∃ j < m.getAllocatedExtents, i ≠ j ∧
      addr1 = m.addressOf i ∧ addr2 = m.addressOf j ∧
      m'.getAllocatedExtents = m.getAllocatedExtents ∧ m'.getExtentSize = m.getExtentSize ∧
      m'.addressOf = m.addressOf ∧ m'.maxMemory = m.maxMemory ∧
      m'.visible i = m.visible j ∧ m'.visible j = m.visible i ∧
      ∀ k, k ≠ i → k ≠ j → m'.visible k = m.visible k := by
  obtain ⟨i, hi, j, hj, distinct, rfl, rfl, rfl⟩ := swap_ok wf ok
  refine ⟨i, hi, j, hj, distinct, rfl, rfl, by simp [getAllocatedExtents], rfl, rfl, rfl, ?_, ?_,
    ?_⟩
  · exact congrArg m.load (by simp [distinct])
  · exact congrArg m.load (by simp)
  · intro k notI notJ
    exact congrArg m.load (by simp [notI, notJ])

/-! ## Swaps and stores keep the page table and the translation map together -/

theorem WF.swap {m m' : RewiredMemory α} {addr1 addr2 : Nat} {mmap1 mmap2 : Bool} {u : Unit}
    (wf : m.WF) (ok : RewiredMemory.swap addr1 addr2 mmap1 mmap2 m = .ok u m') : m'.WF := by
  obtain ⟨i, hi, j, hj, distinct, -, -, rfl⟩ := swap_ok wf ok
  unfold getAllocatedExtents at hi hj
  refine ⟨wf.extent_pos, ?_, wf.file_le, wf.range, ?_, ?_, ?_⟩
  · simpa [getExtentSize, getAllocatedExtents] using wf.size_le
  · simp only [getAllocatedExtents, List.length_set]
    rw [wf.mapping_eq i hi, wf.mapping_eq j hj]
    exact (List.set_set_perm hi hj).trans wf.perm
  · intro k hk
    simp only [List.length_set] at hk
    simp only [List.getElem_set, Function.update_apply, eq_comm (a := j), eq_comm (a := i)]
    split_ifs
    · rfl
    · rfl
    · exact wf.mapping_eq k hk
  · intro k hk
    simp only [List.length_set] at hk
    simp only [Function.update_apply]
    rw [if_neg (by omega), if_neg (by omega)]
    exact wf.mapping_past k hk

theorem WF.store {m : RewiredMemory α} (wf : m.WF) (i : Nat) (content : α) :
    (m.store i content).WF :=
  ⟨wf.extent_pos, wf.size_le, wf.file_le, wf.range, wf.perm, wf.mapping_eq, wf.mapping_past⟩

/-- A store changes the one extent it addresses. -/
theorem WF.visible_store {m : RewiredMemory α} (wf : m.WF) {i : Nat}
    (h : i < m.getAllocatedExtents) (k : Nat) (content : α) :
    (m.store i content).visible k = if k = i then some content else m.visible k := by
  by_cases same : k = i
  · subst same
    rw [(wf.store k content).visible_eq h, if_pos rfl]
    exact congrArg some (Function.update_self _ _ _)
  · rw [if_neg same]
    have other : m.mapping k ≠ m.mapping i := fun eq => same (wf.mapping_injective eq)
    simp only [visible, load, RewiredMemory.store, Function.update_of_ne other]
    rfl

end RewiredMemory

end Rma
