import Rma.Base.Runs
import Rma.Base.Words

/-!
# The cached memory pool

`CachedMemoryPool` serves a request from its buffer where there is room, and with `malloc`
otherwise; it counts the blocks of the buffer in use, and starts again from the beginning of the
buffer when there are none. A pointer that is released belongs to the buffer if it is not outside
of its ends, and the end itself counts as inside.
-/

namespace Rma

open Base

/-- The fields of `MemoryPool`; pointers are addresses. -/
structure MemoryPool where
  buffer : Nat -- underlying storage
  offset : Nat -- current offset in the buffer
  capacity : Nat
  deriving DecidableEq, Repr

namespace MemoryPool

/-- The constructor, for the buffer that `malloc` returns. -/
def create (buffer capacity : Nat) : MemoryPool := ⟨buffer, 0, capacity⟩

/-- `allocate(n)`; `none` is the null pointer. -/
def allocate (p : MemoryPool) (n : Nat) : Option Nat × MemoryPool :=
  if p.capacity - p.offset < n then (none, p) -- not enough space
  else (some (p.buffer + p.offset), { p with offset := p.offset + n })

/-- `release()` -/
def release (p : MemoryPool) : MemoryPool := { p with offset := 0 }

/-- `begin()` -/
def bufferBegin (p : MemoryPool) : Nat := p.buffer

/-- `end()` -/
def bufferEnd (p : MemoryPool) : Nat := p.buffer + p.capacity

end MemoryPool

/-- The fields of `CachedMemoryPool`. -/
structure CachedMemoryPool where
  pool : MemoryPool
  counter : Int -- number of allocations currently in use from the pool
  deriving DecidableEq, Repr

namespace CachedMemoryPool

/-- The allocators. -/
inductive Source where
  | pool
  | heap
  deriving DecidableEq, Repr

/-- `allocate_raw(n)`: the pointer, and the allocator that it comes from. `malloc` is what the
standard library returns if it is asked, `none` for the null pointer; the result is undefined where
the request raises. -/
def allocateRaw (c : CachedMemoryPool) (n : Nat) (malloc : Option Nat) :
    Option (Option (Nat × Source) × CachedMemoryPool) :=
  if n = 0 then some (none, c)
  else match c.pool.allocate n with
    | (none, _) => malloc.map fun ptr => (some (ptr, .heap), c)
    | (some ptr, pool) => some (some (ptr, .pool), ⟨pool, toInt (c.counter + 1)⟩)

/-- `deallocate_raw(ptr)`, with the allocator that the pointer is given back to. -/
def deallocateRaw (c : CachedMemoryPool) (ptr : Nat) : Source × CachedMemoryPool :=
  if c.pool.bufferBegin ≤ ptr ∧ ptr ≤ c.pool.bufferEnd then
    let counter := toInt (c.counter - 1)
    (.pool, ⟨if counter = 0 then c.pool.release else c.pool, counter⟩)
  else (.heap, c)

/-! ## Runs -/

/-- A block that is in use. -/
structure Block where
  ptr : Nat
  size : Nat
  source : Source
  deriving DecidableEq, Repr

/-- Two ranges of bytes have no byte in common. -/
def Apart (p n q m : Nat) : Prop := p + n ≤ q ∨ q + m ≤ p ∨ n = 0 ∨ m = 0

instance (p n q m : Nat) : Decidable (Apart p n q m) := inferInstanceAs (Decidable (_ ∨ _))

/-- The pool and the blocks that were returned and not yet released. -/
structure State where
  pool : CachedMemoryPool
  live : List Block
  deriving DecidableEq, Repr

/-- A new pool. -/
def State.start (buffer capacity : Nat) : State := ⟨⟨MemoryPool.create buffer capacity, 0⟩, []⟩

/-- The requests; `malloc` is the answer of the standard library. -/
inductive Action where
  | allocate (n : Nat) (malloc : Option Nat)
  | deallocate (ptr : Nat)
  deriving DecidableEq, Repr

/-- The block with the given pointer. -/
def State.find (s : State) (ptr : Nat) : Option Block := s.live.find? fun b => b.ptr = ptr

/-- `malloc` returns blocks that have nothing in common with the live blocks and with the buffer. -/
def State.Fresh (s : State) (ptr n : Nat) : Prop :=
  (∀ b ∈ s.live, Apart ptr n b.ptr b.size) ∧
    Apart ptr n s.pool.pool.buffer s.pool.pool.capacity

instance (s : State) (ptr n : Nat) : Decidable (s.Fresh ptr n) := inferInstanceAs (Decidable (_ ∧ _))

/-- A request; undefined where `malloc` does not do what it promises, for no bytes, and for a
pointer that is not in use. A request that raises changes nothing. -/
def step (s : State) : Action → Option State
  | .allocate n malloc =>
    match allocateRaw s.pool n malloc with
    | none => some s
    | some (none, _) => none
    | some (some (ptr, .pool), pool) => some ⟨pool, ⟨ptr, n, .pool⟩ :: s.live⟩
    | some (some (ptr, .heap), pool) =>
      if s.Fresh ptr n then some ⟨pool, ⟨ptr, n, .heap⟩ :: s.live⟩ else none
  | .deallocate ptr =>
    (s.find ptr).map fun b => ⟨(deallocateRaw s.pool ptr).2, s.live.erase b⟩

/-- The number of live blocks of the pool. -/
def State.poolBlocks (s : State) : Nat := s.live.countP fun b => b.source = .pool

/-- No two live blocks overlap, those of the pool are inside of its buffer, and the counter is their
number. -/
structure State.Sound (s : State) : Prop where
  apart : s.live.Pairwise fun b c => Apart b.ptr b.size c.ptr c.size
  inside : ∀ b ∈ s.live, b.source = .pool →
    s.pool.pool.bufferBegin ≤ b.ptr ∧ b.ptr + b.size ≤ s.pool.pool.bufferEnd
  counter : s.pool.counter = s.poolBlocks

/-- The block is given back to the allocator it came from, and the pool is reset exactly when this
was its last block. -/
structure State.GivenBack (s t : State) (b : Block) : Prop where
  source : (deallocateRaw s.pool b.ptr).1 = b.source
  reset : t.pool.pool = if b.source = .pool ∧ t.poolBlocks = 0 then s.pool.pool.release
    else s.pool.pool

/-- What a request leaves. -/
def State.Served (s : State) (a : Action) : Prop :=
  ∀ t, step s a = some t → t.Sound ∧
    ∀ ptr b, a = .deallocate ptr → s.find ptr = some b → s.GivenBack t b

/-- The condition on a request: no block of the standard library that starts at the end of the
buffer is released, and the counter does not overflow. -/
def State.Fits (s : State) : Action → Prop
  | .allocate n _ => 0 < n → n ≤ s.pool.pool.capacity - s.pool.pool.offset →
    s.pool.counter < 2 ^ 31 - 1
  | .deallocate ptr => ∀ b, s.find ptr = some b → b.source = .heap →
    ptr ≠ s.pool.pool.bufferEnd

/-! ## The invariant -/

/-- The blocks of the pool are before the offset, and those of the heap are not in the buffer. -/
structure State.Valid (s : State) : Prop where
  sound : s.Sound
  room : s.pool.pool.offset ≤ s.pool.pool.capacity
  sizes : ∀ b ∈ s.live, 0 < b.size
  before : ∀ b ∈ s.live, b.source = .pool → b.ptr + b.size ≤ s.pool.pool.buffer + s.pool.pool.offset
  outside : ∀ b ∈ s.live, b.source = .heap →
    Apart b.ptr b.size s.pool.pool.buffer s.pool.pool.capacity
  few : s.poolBlocks < 2 ^ 31

theorem State.start_valid (buffer capacity : Nat) : (State.start buffer capacity).Valid where
  sound := ⟨List.Pairwise.nil, fun b member => (nomatch member), rfl⟩
  room := Nat.zero_le capacity
  sizes := fun b member => (nomatch member)
  before := fun b member => (nomatch member)
  outside := fun b member => (nomatch member)
  few := by
    rw [State.start, State.poolBlocks, List.countP_nil]
    norm_num

section Steps

variable {s t : State} {n ptr : Nat} {malloc : Option Nat} {b : Block}

/-- What a request for memory does. -/
theorem step_allocate (run : step s (.allocate n malloc) = some t) :
    t = s ∨
      (0 < n ∧ n ≤ s.pool.pool.capacity - s.pool.pool.offset ∧
        t = ⟨⟨{ s.pool.pool with offset := s.pool.pool.offset + n }, toInt (s.pool.counter + 1)⟩,
          ⟨s.pool.pool.buffer + s.pool.pool.offset, n, .pool⟩ :: s.live⟩) ∨
      0 < n ∧ ∃ ptr, s.Fresh ptr n ∧ t = ⟨s.pool, ⟨ptr, n, .heap⟩ :: s.live⟩ := by
  rw [step, allocateRaw] at run
  by_cases nothing : n = 0
  · rw [if_pos nothing] at run
    cases run
  · rw [if_neg nothing, MemoryPool.allocate] at run
    by_cases full : s.pool.pool.capacity - s.pool.pool.offset < n
    · rw [if_pos full] at run
      cases malloc with
      | none =>
          cases run
          exact Or.inl rfl
      | some ptr =>
          dsimp only [Option.map_some] at run
          split at run
          · next fresh =>
            cases run
            exact Or.inr (Or.inr ⟨Nat.pos_of_ne_zero nothing, ptr, fresh, rfl⟩)
          · cases run
    · rw [if_neg full] at run
      cases run
      exact Or.inr (Or.inl ⟨Nat.pos_of_ne_zero nothing, Nat.not_lt.mp full, rfl⟩)

/-- A request that the pool serves. -/
theorem step_pool (malloc : Option Nat) (positive : 0 < n)
    (most : n ≤ s.pool.pool.capacity - s.pool.pool.offset) :
    step s (.allocate n malloc) = some
      ⟨⟨{ s.pool.pool with offset := s.pool.pool.offset + n }, toInt (s.pool.counter + 1)⟩,
        ⟨s.pool.pool.buffer + s.pool.pool.offset, n, .pool⟩ :: s.live⟩ := by
  rw [step, allocateRaw, if_neg positive.ne', MemoryPool.allocate, if_neg (Nat.not_lt.mpr most)]

theorem find_some (found : s.find ptr = some b) : b ∈ s.live ∧ b.ptr = ptr :=
  ⟨List.mem_of_find?_eq_some found, by simpa using List.find?_some found⟩

/-- What a release does. -/
theorem step_deallocate (run : step s (.deallocate ptr) = some t) :
    ∃ b, s.find ptr = some b ∧ t = ⟨(deallocateRaw s.pool ptr).2, s.live.erase b⟩ := by
  obtain ⟨b, found, rfl⟩ := Option.map_eq_some_iff.mp run
  exact ⟨b, found, rfl⟩

theorem poolBlocks_erase (pool : CachedMemoryPool) (member : b ∈ s.live) :
    (State.mk pool (s.live.erase b)).poolBlocks =
      s.poolBlocks - if b.source = .pool then 1 else 0 := by
  rw [State.poolBlocks, List.countP_erase, State.poolBlocks]
  simp [member]

theorem poolBlocks_pos (member : b ∈ s.live) (source : b.source = .pool) : 0 < s.poolBlocks :=
  List.countP_pos_iff.mpr ⟨b, member, by simpa using source⟩

/-- A block of the pool that is released. -/
theorem deallocateRaw_pool (valid : s.Valid) (member : b ∈ s.live) (source : b.source = .pool) :
    deallocateRaw s.pool b.ptr = (.pool,
      ⟨if s.poolBlocks = 1 then s.pool.pool.release else s.pool.pool, (s.poolBlocks - 1 : Nat)⟩) := by
  obtain ⟨lower, upper⟩ := valid.sound.inside b member source
  have positive := poolBlocks_pos member source
  have few := valid.few
  have counter : toInt (s.pool.counter - 1) = (s.poolBlocks - 1 : Nat) := by
    rw [valid.sound.counter, toInt_of_lt (by omega) (by omega)]
    omega
  rw [deallocateRaw, if_pos ⟨lower, by omega⟩]
  dsimp only
  rw [counter]
  by_cases last : s.poolBlocks = 1
  · rw [if_pos last, if_pos (by omega)]
  · rw [if_neg last, if_neg (by omega)]

/-- A block of the heap that does not start at the end of the buffer. -/
theorem deallocateRaw_heap (valid : s.Valid) (member : b ∈ s.live) (source : b.source = .heap)
    (other : b.ptr ≠ s.pool.pool.bufferEnd) : deallocateRaw s.pool b.ptr = (.heap, s.pool) := by
  have outside := valid.outside b member source
  have size := valid.sizes b member
  rw [Apart] at outside
  rw [MemoryPool.bufferEnd] at other
  rw [deallocateRaw, MemoryPool.bufferBegin, MemoryPool.bufferEnd, if_neg (by omega)]

/-- A request for memory keeps the invariant. -/
theorem State.Valid.allocate (valid : s.Valid) (fits : s.Fits (.allocate n malloc))
    (run : step s (.allocate n malloc) = some t) : t.Valid := by
  have sound := valid.sound
  have room := valid.room
  rcases step_allocate run with rfl | ⟨positive, most, rfl⟩ | ⟨positive, ptr, fresh, rfl⟩
  · exact valid
  · have counter := fits positive most
    have count : (State.mk ⟨{ s.pool.pool with offset := s.pool.pool.offset + n },
        toInt (s.pool.counter + 1)⟩ (⟨s.pool.pool.buffer + s.pool.pool.offset, n, .pool⟩ ::
          s.live)).poolBlocks = s.poolBlocks + 1 := List.countP_cons_of_pos rfl
    have less : s.poolBlocks < 2 ^ 31 - 1 := by
      rw [sound.counter] at counter
      omega
    refine ⟨⟨List.pairwise_cons.mpr ⟨fun c member => ?_, sound.apart⟩, fun c member source => ?_,
      ?_⟩, ?_, fun c member => ?_, fun c member source => ?_, fun c member source => ?_, ?_⟩
    · have size := valid.sizes c member
      cases source : c.source with
      | pool => exact Or.inr (Or.inl (valid.before c member source))
      | heap =>
          have outside := valid.outside c member source
          rw [Apart] at outside ⊢
          dsimp only
          omega
    · rcases List.mem_cons.mp member with rfl | old
      · rw [MemoryPool.bufferBegin, MemoryPool.bufferEnd]
        dsimp only
        omega
      · exact sound.inside c old source
    · rw [count]
      dsimp only
      rw [sound.counter, toInt_of_lt (by omega) (by omega)]
      omega
    · dsimp only
      omega
    · rcases List.mem_cons.mp member with rfl | old
      · exact positive
      · exact valid.sizes c old
    · rcases List.mem_cons.mp member with rfl | old
      · dsimp only
        omega
      · have before := valid.before c old source
        dsimp only
        omega
    · rcases List.mem_cons.mp member with rfl | old
      · cases source
      · exact valid.outside c old source
    · rw [count]
      omega
  · obtain ⟨others, buffer⟩ := fresh
    refine ⟨⟨List.pairwise_cons.mpr ⟨others, sound.apart⟩, fun c member source => ?_,
      sound.counter⟩, room, fun c member => ?_, fun c member source => ?_,
      fun c member source => ?_, valid.few⟩
    · rcases List.mem_cons.mp member with rfl | old
      · cases source
      · exact sound.inside c old source
    · rcases List.mem_cons.mp member with rfl | old
      · exact positive
      · exact valid.sizes c old
    · rcases List.mem_cons.mp member with rfl | old
      · cases source
      · exact valid.before c old source
    · rcases List.mem_cons.mp member with rfl | old
      · exact buffer
      · exact valid.outside c old source

/-- The invariant without one of the blocks. -/
theorem State.Valid.erase (valid : s.Valid) {c : CachedMemoryPool}
    (buffer : c.pool.buffer = s.pool.pool.buffer) (capacity : c.pool.capacity = s.pool.pool.capacity)
    (room : c.pool.offset ≤ c.pool.capacity)
    (before : ∀ d ∈ s.live.erase b, d.source = .pool → s.pool.pool.offset ≤ c.pool.offset)
    (counter : c.counter = (State.mk c (s.live.erase b)).poolBlocks) :
    (State.mk c (s.live.erase b)).Valid := by
  have old : ∀ d ∈ s.live.erase b, d ∈ s.live := fun d => List.mem_of_mem_erase
  refine ⟨⟨valid.sound.apart.sublist List.erase_sublist, fun d member source => ?_, counter⟩, room,
    fun d member => valid.sizes d (old d member), fun d member source => ?_,
    fun d member source => ?_, ?_⟩
  · have inside := valid.sound.inside d (old d member) source
    rw [MemoryPool.bufferBegin, MemoryPool.bufferEnd] at inside ⊢
    rwa [buffer, capacity]
  · have less := valid.before d (old d member) source
    have more := before d member source
    dsimp only
    omega
  · have outside := valid.outside d (old d member) source
    dsimp only
    rwa [buffer, capacity]
  · exact Nat.lt_of_le_of_lt (List.erase_sublist.countP_le) valid.few

/-- A release keeps the invariant, and gives the block back. -/
theorem State.Valid.deallocate (valid : s.Valid) (fits : s.Fits (.deallocate ptr))
    (found : s.find ptr = some b) :
    (State.mk (deallocateRaw s.pool ptr).2 (s.live.erase b)).Valid ∧
      s.GivenBack (State.mk (deallocateRaw s.pool ptr).2 (s.live.erase b)) b := by
  obtain ⟨member, rfl⟩ := find_some found
  have count := fun pool => poolBlocks_erase pool member
  cases source : b.source with
  | pool =>
      have positive := poolBlocks_pos member source
      simp only [source, if_true] at count
      rw [deallocateRaw_pool valid member source]
      by_cases last : s.poolBlocks = 1
      · rw [if_pos last]
        refine ⟨valid.erase rfl rfl (Nat.zero_le _) (fun d inside same => ?_) (by rw [count]),
          ?_, ?_⟩
        · -- no block of the pool is left
          have left := @poolBlocks_pos ⟨s.pool, s.live.erase b⟩ d inside same
          rw [count, last] at left
          omega
        · rw [deallocateRaw_pool valid member source, source]
        · rw [if_pos ⟨source, by rw [count, last]⟩]
      · rw [if_neg last]
        refine ⟨valid.erase rfl rfl valid.room (fun _ _ _ => le_rfl) (by rw [count]), ?_, ?_⟩
        · rw [deallocateRaw_pool valid member source, source]
        · rw [if_neg]
          rintro ⟨-, zero⟩
          rw [count] at zero
          omega
  | heap =>
      have other := fits b found source
      simp only [source, reduceCtorEq, if_false, Nat.sub_zero] at count
      rw [deallocateRaw_heap valid member source other]
      refine ⟨valid.erase rfl rfl valid.room (fun _ _ _ => le_rfl)
        (by rw [count]; exact valid.sound.counter), ?_, ?_⟩
      · rw [deallocateRaw_heap valid member source other, source]
      · rw [if_neg]
        rintro ⟨same, -⟩
        rw [source] at same
        cases same

/-! ## The requests that are served -/

theorem State.Valid.step {a : Action} (valid : s.Valid) (fits : s.Fits a)
    (run : CachedMemoryPool.step s a = some t) : t.Valid := by
  cases a with
  | allocate n malloc => exact valid.allocate fits run
  | deallocate ptr =>
      obtain ⟨b, found, rfl⟩ := step_deallocate run
      exact (valid.deallocate fits found).1

/-- A request is served exactly where it meets the condition. -/
theorem served_iff (valid : s.Valid) (a : Action) : s.Served a ↔ s.Fits a := by
  constructor
  · intro served
    cases a with
    | allocate n malloc =>
        intro positive most
        have counter := (served _ (step_pool malloc positive most)).1.counter
        have count : (State.mk ⟨{ s.pool.pool with offset := s.pool.pool.offset + n },
            toInt (s.pool.counter + 1)⟩ (⟨s.pool.pool.buffer + s.pool.pool.offset, n, .pool⟩ ::
              s.live)).poolBlocks = s.poolBlocks + 1 := List.countP_cons_of_pos rfl
        have few := valid.few
        have bound := toInt_lt (s.pool.counter + 1)
        rw [count] at counter
        dsimp only at counter
        rw [counter] at bound
        rw [valid.sound.counter]
        omega
    | deallocate ptr =>
        intro b found source here
        obtain ⟨member, rfl⟩ := find_some found
        have run : CachedMemoryPool.step s (.deallocate b.ptr) =
            some ⟨(deallocateRaw s.pool b.ptr).2, s.live.erase b⟩ := by
          rw [CachedMemoryPool.step, found]
          rfl
        have back := ((served _ run).2 b.ptr b rfl found).source
        rw [deallocateRaw, if_pos ⟨by rw [here]; exact Nat.le_add_right _ _, here.le⟩, source]
          at back
        cases back
  · intro fits t run
    refine ⟨(valid.step fits run).sound, ?_⟩
    rintro ptr b rfl found
    obtain ⟨b', found', rfl⟩ := step_deallocate run
    obtain rfl := Option.some.inj (found.symm.trans found')
    exact (valid.deallocate fits found).2

end Steps

/-- **The pool** hands out memory that does not overlap, gives every block back to where it came
from and counts its blocks, along a run, exactly where no released block of the heap starts at
the end of the buffer and the counter does not overflow. -/
theorem along_served_iff (buffer capacity : Nat) (actions : List Action) :
    along step State.Served (State.start buffer capacity) actions ↔
      along step State.Fits (State.start buffer capacity) actions :=
  along_congr (fun _ a valid => served_iff valid a) (fun _ _ _ valid fits run =>
    valid.step fits run) (State.start_valid buffer capacity)

/-- A block of the heap that starts at the end of a buffer of 16 bytes is released to the pool, and
the next block is the one that is still in use. -/
theorem adjacent_block : ¬ along step State.Served (State.start 1000 16)
      [.allocate 8 none, .allocate 16 (some 1016), .deallocate 1016, .allocate 8 none] ∧
    (runFrom step (State.start 1000 16) [.allocate 8 none, .allocate 16 (some 1016),
      .deallocate 1016, .allocate 8 none]).map State.live =
        some [⟨1000, 8, .pool⟩, ⟨1000, 8, .pool⟩] := by
  refine ⟨?_, by decide⟩
  rintro ⟨-, rest⟩
  obtain ⟨-, rest⟩ := rest _ rfl
  obtain ⟨served, -⟩ := rest _ rfl
  have back := ((served _ rfl).2 1016 _ rfl rfl).source
  revert back
  decide

end CachedMemoryPool

end Rma
