import Mathlib.Tactic

/-!
# Cutting a stream in chunks

Inputs arrive one at a time and are gathered in chunks, of `fill` inputs each, or of one more
for the first `breaks` chunks. `Chunked` is the state of such a stream: the chunks that are
done, and the one that is being filled.
-/

namespace Rma.Base

/-- The size of a chunk. -/
def chunkSize (fill breaks j : Nat) : Nat := fill + if j < breaks then 1 else 0

/-- The number of inputs before a chunk. -/
def chunkStart (fill breaks j : Nat) : Nat := j * fill + min j breaks

theorem chunkStart_succ (fill breaks j : Nat) :
    chunkStart fill breaks (j + 1) = chunkStart fill breaks j + chunkSize fill breaks j := by
  unfold chunkStart chunkSize
  rw [Nat.succ_mul]
  split <;> omega

theorem le_chunkSize (fill breaks j : Nat) : fill ≤ chunkSize fill breaks j :=
  Nat.le_add_right _ _

theorem chunkStart_le (fill breaks : Nat) {i j : Nat} (order : i ≤ j) :
    chunkStart fill breaks i ≤ chunkStart fill breaks j :=
  monotone_nat_of_le_succ (fun n => by rw [chunkStart_succ]; omega) order

theorem chunkStart_add_le (fill breaks : Nat) {i j : Nat} (order : i < j) :
    chunkStart fill breaks i + chunkSize fill breaks i ≤ chunkStart fill breaks j := by
  rw [← chunkStart_succ]
  exact chunkStart_le fill breaks order

/-- The first chunks take one input more. -/
theorem chunkStart_breaks (fill breaks : Nat) :
    chunkStart fill breaks breaks = breaks * (fill + 1) := by
  rw [chunkStart, min_self, Nat.mul_succ]

/-- The inputs so far are the chunks that are done and the current one. -/
structure Chunked {α : Type} (fill breaks : Nat) (inputs : List α) (done : List (List α))
    (current : List α) : Prop where
  whole : inputs = done.flatten ++ current
  sizes : done.map List.length = (List.range done.length).map (chunkSize fill breaks)
  fits : current.length ≤ chunkSize fill breaks done.length

namespace Chunked

variable {α : Type} {fill breaks : Nat} {inputs current : List α} {done : List (List α)} {x : α}

theorem nil : Chunked fill breaks ([] : List α) [] [] := ⟨rfl, rfl, Nat.zero_le _⟩

theorem sum_sizes (fill breaks n : Nat) :
    ((List.range n).map (chunkSize fill breaks)).sum = chunkStart fill breaks n := by
  induction n with
  | zero => simp [chunkStart]
  | succ n ih => simp [List.range_succ, ih, chunkStart_succ]

theorem length_inputs (chunked : Chunked fill breaks inputs done current) :
    inputs.length = chunkStart fill breaks done.length + current.length := by
  rw [chunked.whole, List.length_append, List.length_flatten, chunked.sizes, sum_sizes]

/-- The current chunk takes an input. -/
theorem push (chunked : Chunked fill breaks inputs done current)
    (room : current.length < chunkSize fill breaks done.length) (x : α) :
    Chunked fill breaks (inputs ++ [x]) done (current ++ [x]) where
  whole := by rw [chunked.whole, List.append_assoc]
  sizes := chunked.sizes
  fits := by simpa using room

/-- The current chunk is full, and the next one takes an input. -/
theorem next (chunked : Chunked fill breaks inputs done current) (positive : 0 < fill)
    (full : current.length = chunkSize fill breaks done.length) (x : α) :
    Chunked fill breaks (inputs ++ [x]) (done ++ [current]) [x] where
  whole := by rw [chunked.whole, List.flatten_append, List.flatten_singleton]
  sizes := by
    rw [List.map_append, chunked.sizes, List.length_append, List.length_singleton,
      List.range_succ, List.map_append, List.map_singleton, List.map_singleton, full]
  fits := by
    have := le_chunkSize fill breaks (done ++ [current]).length
    rw [List.length_singleton]
    omega

/-- A chunk that is done has its size. -/
theorem size_done (chunked : Chunked fill breaks inputs done current) {chunk : List α}
    (member : chunk ∈ done) : ∃ j, chunk.length = chunkSize fill breaks j := by
  have size : chunk.length ∈ done.map List.length := List.mem_map_of_mem member
  rw [chunked.sizes] at size
  obtain ⟨j, -, size⟩ := List.mem_map.mp size
  exact ⟨j, size.symm⟩

section Plan

variable {count : Nat}

/-- No more chunks are begun than planned. -/
theorem length_done_lt (chunked : Chunked fill breaks inputs done current)
    (nonempty : current ≠ []) (few : inputs.length ≤ chunkStart fill breaks count) :
    done.length < count := by
  have some := List.length_pos_iff.mpr nonempty
  have length := chunked.length_inputs
  by_contra least
  have := chunkStart_le fill breaks (not_lt.mp least)
  omega

/-- Before the last input the current chunk is not full, if no chunk has a single input. -/
theorem room_of_last (chunked : Chunked fill breaks inputs done current)
    (several : 2 ≤ fill) (last : inputs.length + 1 = chunkStart fill breaks count) :
    current.length < chunkSize fill breaks done.length := by
  have length := chunked.length_inputs
  have start := chunkStart_succ fill breaks done.length
  by_contra full
  have fits := chunked.fits
  rcases Nat.lt_or_ge (done.length + 1) count with before | after
  · -- the next chunk is planned, and takes at least two inputs
    have := chunkStart_add_le fill breaks before
    have := le_chunkSize fill breaks (done.length + 1)
    omega
  · have := chunkStart_le fill breaks after
    omega

/-- After the last input the current chunk is the last one, and is full. -/
theorem complete (chunked : Chunked fill breaks inputs done current) (positive : 0 < fill)
    (nonempty : current ≠ []) (all : inputs.length = chunkStart fill breaks count) :
    done.length + 1 = count ∧ current.length = chunkSize fill breaks done.length := by
  have begun := chunked.length_done_lt nonempty all.le
  have length := chunked.length_inputs
  have start := chunkStart_succ fill breaks done.length
  have fits := chunked.fits
  have planned := chunkStart_add_le fill breaks begun
  refine ⟨?_, by omega⟩
  by_contra other
  have := chunkStart_add_le fill breaks (show done.length + 1 < count by omega)
  have := le_chunkSize fill breaks (done.length + 1)
  omega

end Plan

end Chunked

/-- Every input is in one of the chunks. -/
theorem exists_chunk {fill breaks count i : Nat} (inside : i < chunkStart fill breaks count) :
    ∃ j o, j < count ∧ o < chunkSize fill breaks j ∧ i = chunkStart fill breaks j + o := by
  induction count with
  | zero => simp [chunkStart] at inside
  | succ count ih =>
      rcases Nat.lt_or_ge i (chunkStart fill breaks count) with before | here
      · obtain ⟨j, o, less, within, same⟩ := ih before
        exact ⟨j, o, by omega, within, same⟩
      · rw [chunkStart_succ] at inside
        exact ⟨count, i - chunkStart fill breaks count, by omega, by omega, by omega⟩

/-- A total divided evenly: the first chunks take what is left. -/
theorem chunkStart_even (total count : Nat) (positive : 0 < count) :
    chunkStart (total / count) (total % count) count = total := by
  have small := Nat.mod_lt total positive
  unfold chunkStart
  rw [min_eq_right small.le]
  exact Nat.div_add_mod total count

end Rma.Base
