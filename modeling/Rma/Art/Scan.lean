import Rma.Art.Multimap
import Rma.LeafScan

/-!
# Range scans

`find(min, max)` and `sum(min, max)` start from the leaf that the index gives for `min`, or from the
next one where all its keys are smaller. That leaf is the last one whose first key is at most
`min`: leaves before it may end with the same key. And where the scan starts with the next leaf,
only `find` asks whether its first key is above `max`. `scans_iff` says when the two are exact.
-/

namespace Rma.Art

open Base OrderedIndex SumResult

variable {τ : Type} (tree : OrderedIndex Bytes Nat τ)

/-- The leaves that the scans go through. -/
def scan (t : Art τ) : LeafScan := ⟨fun a => (t.leaves a).elements, t.links.next⟩

/-- `leaf_iterator` -/
def leafIterator (t : Art τ) (leaf : Option Nat) (min max : Int) : Option LeafScan.Iterator :=
  let leaf := leaf.getD t.first
  if t.scan.size leaf = 0 then t.scan.createIterator max none 0 -- empty tree
  else do
    let last ← t.scan.readKey leaf (t.scan.size leaf - 1)
    if last < min then
      -- the interval starts at the sibling leaf
      match t.links.next leaf with
      | none => t.scan.createIterator max none 0
      | some sibling => do
        let first ← t.scan.readKey sibling 0
        t.scan.createIterator max (if first ≥ min then some sibling else none) 0
    else do
      let first ← t.scan.readKey leaf 0
      -- the interval should have started before this leaf
      if first > max then t.scan.createIterator max none 0
      else do
        let i ← scanUpM (fun i => (t.scan.readKey leaf i).map (· < min)) 0 (t.scan.size leaf)
        t.scan.createIterator max (some leaf) i

/-- `find(min, max)` -/
def findRange (t : Art τ) (min max : Int) : Option LeafScan.Iterator :=
  if min > max then t.scan.createIterator max none 0
  else t.leafIterator (t.indexFindLeq tree min) min max

/-- `leaf_sum`; no chain is longer than the addresses in use. -/
def leafSum (t : Art τ) (leaf i : Nat) (max : Int) : Option SumResult := do
  let key ← t.scan.readKey leaf i
  t.scan.sumLeaves max t.fresh leaf i { SumResult.empty with firstKey := key }

/-- `sum(min, max)` -/
def sum (t : Art τ) (min max : Int) : Option SumResult :=
  if min > max then some SumResult.empty
  else
    let min := if min < 0 then 0 else min
    let leaf := (t.indexFindLeq tree min).getD t.first
    if t.scan.size leaf = 0 then some SumResult.empty -- empty tree
    else do
      let last ← t.scan.readKey leaf (t.scan.size leaf - 1)
      if last < min then
        -- the interval starts at the sibling leaf
        match t.links.next leaf with
        | none => some SumResult.empty
        | some sibling => do
          let first ← t.scan.readKey sibling 0
          if first ≥ min then t.leafSum sibling 0 max else some SumResult.empty
      else do
        let first ← t.scan.readKey leaf 0
        -- the interval should have started before this leaf
        if first > max then some SumResult.empty
        else do
          let i ← scanUpM (fun i => (t.scan.readKey leaf i).map (· < min)) 0 (t.scan.size leaf)
          t.leafSum leaf i max

/-! ## The states -/

/-- The answer of the index for a key: a leaf with the greatest first key that is at most the key,
none where there is no such leaf. -/
def Floor (v : List Block) (key : Int) : Option Nat → Prop
  | none => ∀ e ∈ pairs v, key < e.1
  | some a => ∃ b ∈ v, b.1 = a ∧ b.2 ≠ [] ∧ minKey b ≤ key ∧
    ∀ c ∈ v, minKey c ≤ key → minKey c ≤ minKey b

/-- The chain of leaves is sorted, and the index answers for it. -/
structure Scannable (tree : OrderedIndex Bytes Nat τ) (t : Art τ) (v : List Block) : Prop where
  represents : Represents t v
  nonempty : v = [(t.first, [])] ∨ ∀ b ∈ v, b.2 ≠ []
  sorted : SortedPairs (pairs v)
  floor : ∀ key, IsKey key → Floor v key (t.indexFindLeq tree key)

/-- The pairs in an interval. -/
def inRange (v : List Block) (min max : Int) : List (Int × Int) :=
  (pairs v).filter fun e => min ≤ e.1 ∧ e.1 ≤ max

/-- `find` gives the pairs of the interval, and `sum` adds them up; neither reads a position that is
not occupied. -/
def Scans (t : Art τ) (v : List Block) (min max : Int) : Prop :=
  (∃ it, t.findRange tree min max = some it ∧
      ∀ count, it.drain t.scan count = some ((inRange v min max).take count)) ∧
    ∃ result, t.sum tree min max = some result ∧ Sums (inRange v min max) result

/-- Where the scans that start from a leaf reach the whole interval: no leaf before it ends with
`min`; or, where all its keys are smaller, the next leaf starts inside of the interval. -/
def Reaches (v : List Block) (min max : Int) (a : Nat) : Prop :=
  ∀ pre b post, v = pre ++ b :: post → b.1 = a → b.2 ≠ [] →
    if keyAt b.2 (b.2.length - 1) < min then
      ∀ c, post.head? = some c → minKey c ≤ max ∧
        (min ≤ minKey c ∨ ∀ x ∈ pairs post, ¬(min ≤ x.1 ∧ x.1 ≤ max))
    else ∀ x ∈ pairs pre, x.1 ≠ min

section Start

variable {tree} {t : Art τ} {v pre post : List Block} {b c : Block} {min max : Int}

/-- The leaf where the scans start. -/
structure Starts (tree : OrderedIndex Bytes Nat τ) (t : Art τ) (v : List Block) (min : Int)
    (pre : List Block) (b : Block) (post : List Block) : Prop where
  split : v = pre ++ b :: post
  leaf : b.1 = (t.indexFindLeq tree min).getD t.first
  run : t.scan.Run (b :: post)
  before : ∀ x ∈ pairs pre, x.1 ≤ min
  first : pre = [] ∨ minKey b ≤ min

/-- The leaves from one of them on are in the chain. -/
theorem Represents.run (represents : Represents t (pre ++ post)) (nonempty : ∀ b ∈ post, b.2 ≠ []) :
    t.scan.Run post := by
  induction post generalizing pre with
  | nil => trivial
  | cons b post ih =>
      have links := (show Represents t (pre ++ (b.1, b.2) :: post) from represents).links.2
      refine ⟨represents.leaves b (by simp), nonempty b List.mem_cons_self, ?_, ?_⟩
      · rw [← List.head?_map]
        exact links
      · rw [List.append_cons] at represents
        exact ih represents fun c member => nonempty c (List.mem_cons_of_mem _ member)

theorem minKey_eq (inside : 0 < b.2.length) : minKey b = (b.2[0]).1 := keyAt_eq inside

/-- The tree has no elements, or the scans start from a leaf with some. -/
theorem Scannable.starts (scannable : Scannable tree t v) (isKey : IsKey min) :
    (v = [(t.first, [])] ∧ t.indexFindLeq tree min = none) ∨
      ∃ pre b post, Starts tree t v min pre b post := by
  have floor := scannable.floor min isKey
  rcases scannable.nonempty with empty | nonempty
  · refine Or.inl ⟨empty, ?_⟩
    cases found : t.indexFindLeq tree min with
    | none => rfl
    | some a =>
        rw [found] at floor
        obtain ⟨b, member, -, some_, -⟩ := floor
        rw [empty, List.mem_singleton] at member
        exact absurd (congrArg Prod.snd member) some_
  · refine Or.inr ?_
    cases found : t.indexFindLeq tree min with
    | none =>
        cases v with
        | nil => exact absurd scannable.represents.first nofun
        | cons b post =>
            have first := scannable.represents.first
            exact ⟨[], b, post, rfl, by rw [found]; exact Option.some.inj first,
              (show Represents t ([] ++ b :: post) from scannable.represents).run nonempty, nofun,
              Or.inl rfl⟩
    | some a =>
        rw [found] at floor
        obtain ⟨b, member, leaf, some_, atMost, -⟩ := floor
        obtain ⟨pre, post, rfl⟩ := List.append_of_mem member
        refine ⟨pre, b, post, rfl, by rw [found]; exact leaf, scannable.represents.run
          fun c later => nonempty c (List.mem_append_right _ later), fun x before => ?_,
          Or.inr atMost⟩
        have sorted := scannable.sorted
        simp only [pairs_append, pairs_cons, SortedPairs.append_iff] at sorted
        obtain ⟨e, inside, same⟩ := exists_min some_
        exact (sorted.2.2 x before e (by simp [inside])).trans (same ▸ atMost)

/-- The position of the first key that is not below `min`. -/
theorem scan_first (run : t.scan.Run (b :: post)) (min : Int) :
    scanUpM (fun i => (t.scan.readKey b.1 i).map (· < min)) 0 b.2.length =
      some (b.2.takeWhile fun e => e.1 < min).length := by
  have reads : (fun i => (t.scan.readKey b.1 i).map fun k => decide (k < min)) =
      fun i => (b.2[i]?).map fun e => decide (e.1 < min) := by
    funext i
    rw [LeafScan.readKey, LeafScan.readElement, run.1, Option.map_map]
    rfl
  rw [reads]
  exact scanUpM_takeWhile b.2 (fun e => decide (e.1 < min)) (Nat.zero_le _)

theorem Starts.findRange_eq (starts : Starts tree t v min pre b post) (order : min ≤ max) :
    t.findRange tree min max = if keyAt b.2 (b.2.length - 1) < min then
        match post with
        | [] => some ⟨none, 0, max⟩
        | c :: _ => t.scan.createIterator max (if min ≤ minKey c then some c.1 else none) 0
      else if max < minKey b then some ⟨none, 0, max⟩
      else t.scan.createIterator max (some b.1) (b.2.takeWhile fun e => e.1 < min).length := by
  have run := starts.run
  have positive := run.positive
  rw [findRange, if_neg (not_lt.mpr order), leafIterator, ← starts.leaf,
    run.size, if_neg positive.ne', run.readKey (by omega), run.readKey positive,
    Option.bind_eq_bind, Option.bind_some, Option.bind_some, scan_first run, ← minKey_eq positive,
    ← keyAt_eq (by omega)]
  congr 1
  have next : t.links.next b.1 = post.head?.map Prod.fst := run.2.2.1
  rw [next]
  cases post with
  | nil => rfl
  | cons c rest =>
      rw [List.head?_cons, Option.map_some]
      dsimp only
      rw [run.2.2.2.readKey run.2.2.2.positive, ← minKey_eq run.2.2.2.positive]
      rfl

theorem Starts.sum_eq (starts : Starts tree t v min pre b post) (isKey : IsKey min)
    (order : min ≤ max) : t.sum tree min max = if keyAt b.2 (b.2.length - 1) < min then
        match post with
        | [] => some SumResult.empty
        | c :: _ => if min ≤ minKey c then t.leafSum c.1 0 max else some SumResult.empty
      else if max < minKey b then some SumResult.empty
      else t.leafSum b.1 (b.2.takeWhile fun e => e.1 < min).length max := by
  have run := starts.run
  have positive := run.positive
  rw [sum, if_neg (not_lt.mpr order), if_neg (not_lt.mpr isKey.1)]
  dsimp only
  rw [← starts.leaf, run.size, if_neg positive.ne', run.readKey (by omega), run.readKey positive,
    Option.bind_eq_bind, Option.bind_some, Option.bind_some, scan_first run, ← minKey_eq positive,
    ← keyAt_eq (by omega)]
  have next : t.links.next b.1 = post.head?.map Prod.fst := run.2.2.1
  rw [next]
  cases post with
  | nil => rfl
  | cons c rest =>
      rw [List.head?_cons, Option.map_some]
      dsimp only
      rw [run.2.2.2.readKey run.2.2.2.positive, ← minKey_eq run.2.2.2.positive]
      rfl

/-- The pairs in an interval, where those from some point on are not below it. -/
theorem inRange_eq {l₁ l₂ : List (Int × Int)} (split : pairs v = l₁ ++ l₂)
    (sorted : SortedPairs (pairs v)) (above : ∀ x ∈ l₂, min ≤ x.1) : inRange v min max =
      l₁.filter (fun e => min ≤ e.1 ∧ e.1 ≤ max) ++ l₂.takeWhile fun e => e.1 ≤ max := by
  rw [split] at sorted
  have rest : (([] : List (Int × Int)) ++ l₂).filter (fun e => min ≤ e.1 ∧ e.1 ≤ max) =
      l₂.takeWhile fun e => e.1 ≤ max :=
    (SortedPairs.append_iff.mp sorted).2.1.filter_interval (List.forall_mem_nil _) above max
  rw [inRange, split, List.filter_append]
  rw [List.nil_append] at rest
  rw [rest]

theorem drain_nothing (t : Art τ) (max : Int) (count : Nat) :
    LeafScan.Iterator.drain t.scan count ⟨none, 0, max⟩ = some ([].take count) := by
  cases count <;> rfl

/-- The scan from a position gives the pairs up to `max`. -/
theorem scans_from {i : Nat} {bs : List Block} (represents : Represents t v)
    (within : (b :: bs).length ≤ v.length) (run : t.scan.Run (b :: bs)) (inside : i < b.2.length) :
    (∃ it, t.scan.createIterator max (some b.1) i = some it ∧ ∀ count,
      it.drain t.scan count = some
        (((LeafScan.pairsFrom b bs i).takeWhile fun e => e.1 ≤ max).take count)) ∧
    ((i = 0 → minKey b ≤ max) → ∃ result, t.leafSum b.1 i max = some result ∧
      Sums ((LeafScan.pairsFrom b bs i).takeWhile fun e => e.1 ≤ max) result) ∧
    (i = 0 → max < minKey b → t.leafSum b.1 i max = none) := by
  have positive := run.positive
  refine ⟨?_, fun least => ?_, ?_⟩
  · obtain ⟨it, created, yields⟩ := run.createIterator inside max
    exact ⟨it, created, yields.drain⟩
  · have enough := represents.length_le
    rw [List.length_cons] at within
    rw [leafSum, run.readKey inside]
    exact run.sums inside (fun zero => by subst zero; exact minKey_eq positive ▸ least rfl)
      (by omega)
  · rintro rfl greater
    rw [minKey_eq positive] at greater
    rw [leafSum, run.readKey inside]
    exact LeafScan.sumLeaves_zero run positive greater _

/-- What the scans give is the interval, or it is not. -/
theorem scans_iff_eq {found : Option LeafScan.Iterator} {total : Option SumResult}
    {out : List (Int × Int)} (interval : List (Int × Int))
    (finds : ∃ it, found = some it ∧ ∀ count, it.drain t.scan count = some (out.take count))
    (sums : ∃ result, total = some result ∧ Sums out result) :
    ((∃ it, found = some it ∧ ∀ count, it.drain t.scan count = some (interval.take count)) ∧
      ∃ result, total = some result ∧ Sums interval result) ↔ out = interval := by
  obtain ⟨it, rfl, drains⟩ := finds
  constructor
  · rintro ⟨⟨it', same, drains'⟩, -⟩
    cases same
    have both := (drains (out.length + interval.length)).symm.trans
      (drains' (out.length + interval.length))
    rw [Option.some_inj, List.take_of_length_le (by omega),
      List.take_of_length_le (by omega)] at both
    exact both
  · rintro rfl
    exact ⟨⟨it, rfl, drains⟩, sums⟩

/-- The elements of the leaf that starts the scans are between those of the others. -/
theorem Starts.sorted (starts : Starts tree t v min pre b post) (scannable : Scannable tree t v) :
    pairs v = pairs pre ++ (b.2 ++ pairs post) ∧ SortedPairs b.2 ∧ SortedPairs (pairs post) ∧
      (∀ x ∈ b.2, ∀ y ∈ pairs post, x.1 ≤ y.1) ∧
      ∀ x ∈ pairs pre, ∀ y ∈ b.2, x.1 ≤ y.1 := by
  have split : pairs v = pairs pre ++ (b.2 ++ pairs post) := by
    rw [starts.split, pairs_append, pairs_cons]
  have sorted := scannable.sorted
  rw [split, SortedPairs.append_iff, SortedPairs.append_iff] at sorted
  exact ⟨split, sorted.2.1.1, sorted.2.1.2.1, sorted.2.1.2.2, fun x before y inside =>
    sorted.2.2 x before y (List.mem_append_left _ inside)⟩

/-- Where the leaf that starts the scans has a key that is not below `min`. -/
theorem Starts.scans_here (starts : Starts tree t v min pre b post)
    (scannable : Scannable tree t v) (isKey : IsKey min) (order : min ≤ max)
    (reaches : min ≤ keyAt b.2 (b.2.length - 1)) :
    Scans tree t v min max ↔ ∀ x ∈ pairs pre, x.1 ≠ min := by
  have run := starts.run
  have positive := run.positive
  obtain ⟨split, sortedB, -, apart, -⟩ := starts.sorted scannable
  rw [Scans, starts.findRange_eq order, starts.sum_eq isKey order, if_neg (not_lt.mpr reaches),
    if_neg (not_lt.mpr reaches)]
  by_cases greater : max < minKey b
  · -- no leaf has a key that is at most `min`
    obtain rfl : pre = [] := starts.first.resolve_right fun le => by omega
    rw [if_pos greater, if_pos greater, scans_iff_eq _ ⟨_, rfl, drain_nothing t max⟩
      ⟨_, rfl, sums_empty⟩]
    refine iff_of_true (List.filter_eq_nil_iff.mpr fun x member => ?_).symm nofun
    rw [split, pairs_nil, List.nil_append] at member
    have least : minKey b ≤ x.1 := by
      rcases List.mem_append.mp member with here | later
      · exact minKey_le sortedB here
      · obtain ⟨e, inside, same⟩ := exists_min run.2.1
        exact same ▸ apart e inside x later
    simp only [decide_eq_true_eq, not_and, not_le]
    exact fun _ => greater.trans_le least
  · rw [if_neg greater, if_neg greater]
    obtain ⟨l₁, l₂, parts, below, above, -, front⟩ := sortedB.split_first min
    have some_ : l₂ ≠ [] := by
      rintro rfl
      rw [List.append_nil] at parts
      obtain ⟨e, inside, same⟩ := keyAt_mem (show b.2.length - 1 < b.2.length by omega)
      have less := below e (parts ▸ inside)
      omega
    have inside : l₁.length < b.2.length := by
      rw [parts, List.length_append]
      have := List.length_pos_of_ne_nil some_
      omega
    have from_ : LeafScan.pairsFrom b post l₁.length = l₂ ++ pairs post := by
      rw [LeafScan.pairsFrom, parts, List.drop_left]
      rfl
    have interval : inRange v min max = (pairs pre).filter (fun e => min ≤ e.1 ∧ e.1 ≤ max) ++
        (LeafScan.pairsFrom b post l₁.length).takeWhile fun e => e.1 ≤ max := by
      have whole : pairs v = (pairs pre ++ l₁) ++ LeafScan.pairsFrom b post l₁.length := by
        rw [split, from_, parts]
        simp only [List.append_assoc]
      have nothing : l₁.filter (fun e => min ≤ e.1 ∧ e.1 ≤ max) = [] := by
        rw [List.filter_eq_nil_iff]
        intro x member
        simp only [decide_eq_true_eq, not_and, not_le]
        exact fun least => absurd (below x member) (not_lt.mpr least)
      have later : ∀ x ∈ LeafScan.pairsFrom b post l₁.length, min ≤ x.1 := by
        intro x member
        rw [from_] at member
        rcases List.mem_append.mp member with here | after
        · exact above x here
        · obtain ⟨e, l, rfl⟩ := List.exists_cons_of_ne_nil some_
          exact (above e List.mem_cons_self).trans (apart e (by rw [parts]; simp) x after)
      rw [inRange_eq whole scannable.sorted later, List.filter_append, nothing, List.append_nil]
    obtain ⟨finds, sums, -⟩ := @scans_from τ t v b max l₁.length post scannable.represents
      (by rw [starts.split, List.length_append]; omega) run inside
    rw [front, scans_iff_eq _ finds (sums fun _ => not_lt.mp greater), interval, eq_comm,
      List.append_left_eq_self, List.filter_eq_nil_iff]
    refine forall_congr' fun x => forall_congr' fun member => ?_
    have atMost := starts.before x member
    simp only [decide_eq_true_eq, not_and, not_le]
    omega

/-- Where all the keys of the leaf are below `min`. -/
theorem Starts.scans_next (starts : Starts tree t v min pre b post)
    (scannable : Scannable tree t v) (isKey : IsKey min) (order : min ≤ max)
    (ends : keyAt b.2 (b.2.length - 1) < min) :
    Scans tree t v min max ↔ ∀ c, post.head? = some c → minKey c ≤ max ∧
      (min ≤ minKey c ∨ ∀ x ∈ pairs post, ¬(min ≤ x.1 ∧ x.1 ≤ max)) := by
  have run := starts.run
  obtain ⟨split, sortedB, sortedPost, apart, before⟩ := starts.sorted scannable
  have below : ∀ x ∈ pairs pre ++ b.2, x.1 < min := by
    intro x member
    have inB : ∀ y ∈ b.2, y.1 < min := by
      intro y inside
      obtain ⟨i, bound, rfl⟩ := List.mem_iff_getElem.mp inside
      have le := keyAt_le sortedB (show i ≤ b.2.length - 1 by omega) (by omega)
      rw [keyAt_eq bound] at le
      exact le.trans_lt ends
    rcases List.mem_append.mp member with early | here
    · obtain ⟨e, inside, -⟩ := exists_min run.2.1
      exact (before x early e inside).trans_lt (inB e inside)
    · exact inB x here
  have interval : inRange v min max = (pairs post).filter fun e => min ≤ e.1 ∧ e.1 ≤ max := by
    rw [inRange, split, ← List.append_assoc, List.filter_append, List.filter_eq_nil_iff.mpr,
      List.nil_append]
    intro x member
    simp only [decide_eq_true_eq, not_and, not_le]
    exact fun least => absurd (below x member) (not_lt.mpr least)
  rw [Scans, starts.findRange_eq order, starts.sum_eq isKey order, if_pos ends, if_pos ends]
  cases post with
  | nil =>
      dsimp only
      rw [scans_iff_eq _ ⟨_, rfl, drain_nothing t max⟩ ⟨_, rfl, sums_empty⟩, interval]
      exact iff_of_true rfl nofun
  | cons c rest =>
      have run' := run.2.2.2
      have heads : ∀ {P : Block → Prop}, (∀ d, (c :: rest).head? = some d → P d) ↔ P c :=
        ⟨fun all => all c rfl, fun holds d head => Option.some.inj head ▸ holds⟩
      rw [heads]
      dsimp only
      by_cases least : min ≤ minKey c
      · rw [if_pos least, if_pos least, and_iff_left (Or.inl least)]
        obtain ⟨finds, sums, undefined_⟩ := @scans_from τ t v c max 0 rest scannable.represents
          (by rw [starts.split]; simp only [List.length_append, List.length_cons]; omega)
          run' run'.positive
        by_cases greater : max < minKey c
        · rw [undefined_ rfl greater]
          exact iff_of_false (fun both => by obtain ⟨-, _, none_, -⟩ := both; cases none_)
            (not_le.mpr greater)
        · rw [scans_iff_eq _ finds (sums fun _ => not_lt.mp greater)]
          refine iff_of_true ?_ (not_lt.mp greater)
          have later : ∀ x ∈ LeafScan.pairsFrom c rest 0, min ≤ x.1 := by
            intro x member
            obtain ⟨e, l, cons⟩ := List.exists_cons_of_ne_nil run'.2.1
            rw [minKey_eq run'.positive] at least
            rw [pairs_cons, cons] at sortedPost
            simp only [cons, List.getElem_cons_zero] at least
            rw [LeafScan.pairsFrom, List.drop_zero, cons] at member
            exact least.trans (sortedPost.head_le x member)
          rw [inRange_eq (split.trans (List.append_assoc _ _ _).symm) scannable.sorted later,
            List.filter_eq_nil_iff.mpr, List.nil_append]
          · rfl
          · intro x member
            simp only [decide_eq_true_eq, not_and, not_le]
            exact fun least => absurd (below x member) (not_lt.mpr least)
      · have none_ : t.scan.createIterator max none 0 = some ⟨none, 0, max⟩ := rfl
        rw [if_neg least, if_neg least, none_, scans_iff_eq _ ⟨_, rfl, drain_nothing t max⟩
          ⟨_, rfl, sums_empty⟩, interval, eq_comm, List.filter_eq_nil_iff,
          and_iff_right (by omega), or_iff_right least]
        simp only [decide_eq_true_eq]

/-- **The range scans are exact** exactly where they reach the whole interval from the leaf that
the index gives for `min`. -/
theorem scans_iff (scannable : Scannable tree t v) (isKey : IsKey min) (max : Int) :
    Scans tree t v min max ↔
      max < min ∨ Reaches v min max ((t.indexFindLeq tree min).getD t.first) := by
  by_cases order : max < min
  · have nothing : inRange v min max = [] := by
      rw [inRange, List.filter_eq_nil_iff]
      intro x _
      simp only [decide_eq_true_eq]
      omega
    rw [Scans, findRange, sum, if_pos order, if_pos order, nothing]
    exact iff_of_true ⟨⟨_, rfl, drain_nothing t max⟩, _, rfl, sums_empty⟩ (Or.inl order)
  · rw [or_iff_right order, not_lt] at *
    rcases scannable.starts isKey with ⟨empty, none_⟩ | ⟨pre, b, post, starts⟩
    · have leaf : (t.leaves t.first).elements = [] :=
        scannable.represents.leaves (t.first, []) (by rw [empty]; simp)
      have size : t.scan.size t.first = 0 := by
        change (t.leaves t.first).elements.length = 0
        rw [leaf, List.length_nil]
      have nothing : inRange v min max = [] := by rw [empty]; rfl
      rw [Scans, findRange, sum, if_neg (not_lt.mpr order), if_neg (not_lt.mpr order), leafIterator,
        if_neg (not_lt.mpr isKey.1)]
      dsimp only
      rw [none_, Option.getD_none, if_pos size, if_pos size, nothing]
      refine iff_of_true ⟨⟨_, rfl, drain_nothing t max⟩, _, rfl, sums_empty⟩ ?_
      intro pre b post split _ some_
      have member : b ∈ v := by rw [split]; simp
      rw [empty, List.mem_singleton] at member
      exact absurd (congrArg Prod.snd member) some_
    · have unique : Reaches v min max ((t.indexFindLeq tree min).getD t.first) ↔
          if keyAt b.2 (b.2.length - 1) < min then
            ∀ c, post.head? = some c → minKey c ≤ max ∧
              (min ≤ minKey c ∨ ∀ x ∈ pairs post, ¬(min ≤ x.1 ∧ x.1 ≤ max))
          else ∀ x ∈ pairs pre, x.1 ≠ min := by
        refine ⟨fun reaches => reaches pre b post starts.split starts.leaf starts.run.2.1, ?_⟩
        intro holds pre' b' post' split leaf _
        have other := (show Represents t (pre ++ (b.1, b.2) :: post) from
          starts.split ▸ scannable.represents).other
        have missing : b' ∉ pre ++ post := fun member =>
          other b' member (leaf.trans starts.leaf.symm)
        rw [List.mem_append, not_or] at missing
        rw [starts.split, List.append_cons_inj_of_notMem missing.1 missing.2] at split
        obtain ⟨rfl, rfl, rfl⟩ := split
        exact holds
      rw [unique]
      by_cases ends : keyAt b.2 (b.2.length - 1) < min
      · rw [if_pos ends, starts.scans_next scannable isKey order ends]
      · rw [if_neg ends, starts.scans_here scannable isKey order (not_lt.mp ends)]

/-- The states of the runs of regular operations are among those of the scans. -/
theorem Valid.scannable (correct : tree.Correct) (valid : Valid tree t v) : Scannable tree t v := by
  rcases valid with filled | ⟨a, rfl, vacant⟩
  · refine ⟨filled.represents, Or.inr filled.ordered.nonempty, filled.ordered.sorted,
      fun key isKey => ?_⟩
    rcases findLeq_spec correct filled isKey with ⟨pre, b, post, rfl, found, least, belongs⟩ |
      ⟨found, above⟩
    · rw [found]
      refine ⟨b, by simp, rfl, filled.ordered.nonempty b (by simp), least, fun c member le => ?_⟩
      rcases List.mem_append.mp member with before | here
      · exact (filled.ordered.min_lt.1 c before).le
      · rcases List.mem_cons.mp here with rfl | after
        · exact le_rfl
        · obtain ⟨e, inside, same⟩ := exists_min (filled.ordered.nonempty c member)
          have greater := belongs.above e (List.mem_flatMap.mpr ⟨c, after, inside⟩)
          omega
    · rw [found]
      have blocks : Ordered t.leafBlockSize ([] ++ v) := filled.ordered
      exact blocks.above above
  · have first : a = t.first := Option.some.inj vacant.represents.first
    refine ⟨vacant.represents, Or.inl (by rw [first]), List.Pairwise.nil, fun key _ => ?_⟩
    rw [indexFindLeq, vacant.index, correct.find_eq_none vacant.holds
      fun _ member => absurd member List.not_mem_nil]
    exact fun _ member => absurd member List.not_mem_nil

end Start

/-- Seven insertions in leaves of four elements. -/
def sevenRun : Option (Art (List (Bytes × Nat))) :=
  runFrom (step listIndex) (init listIndex 4)
    ([10, 50, 50, 70, 80, 90, 95].map fun key => .insert key key)

/-- The leaves after the seven insertions. -/
def sevenBlocks : List Block :=
  [(0, [(10, 10), (50, 50)]), (1, [(50, 50), (70, 70)]), (2, [(80, 80), (90, 90), (95, 95)])]

theorem exists_seven : ∃ t, sevenRun = some t ∧ Scannable listIndex t sevenBlocks := by
  have defined : sevenRun.isSome = true := by decide +kernel
  obtain ⟨t, run⟩ := Option.isSome_iff_exists.mp defined
  obtain ⟨-, v, valid⟩ := run_valid assoc_correct (by decide) run
  have represents := valid.represents
  have blocks : v = t.chain.map fun a => (a, (t.leaves a).elements) := by
    rw [represents.chain_eq, List.map_map]
    exact (List.map_id v).symm.trans (List.map_congr_left fun b member =>
      Prod.ext rfl (represents.leaves b member).symm)
  have shown : sevenRun.map (fun t => t.chain.map fun a => (a, (t.leaves a).elements)) =
      some sevenBlocks := by decide +kernel
  rw [run, Option.map_some, Option.some_inj, ← blocks] at shown
  exact ⟨t, run, shown ▸ valid.scannable assoc_correct⟩

/-- The pairs from 60 to 90 are those of two leaves. -/
theorem scans_iff_seven : ∃ t, Scannable listIndex t sevenBlocks ∧
    Scans listIndex t sevenBlocks 60 90 := by
  obtain ⟨t, run, scannable⟩ := exists_seven
  refine ⟨t, scannable, (scans_iff scannable (by decide) 90).mpr (Or.inr ?_)⟩
  have leaf : sevenRun.map (fun t => (t.indexFindLeq listIndex 60).getD t.first) = some 1 := by
    decide +kernel
  rw [run, Option.map_some, Option.some_inj] at leaf
  rw [leaf]
  intro pre b post split here _
  rw [sevenBlocks] at split
  rcases pre with _ | ⟨p, _ | ⟨q, pre⟩⟩
  · cases split
    cases here
  · cases split
    decide
  · have last : b ∈ [(2, [(80, 80), (90, 90), (95, (95 : Int))])] := by
      injection split with _ split
      injection split with _ split
      rw [split]
      simp
    rw [List.mem_singleton.mp last] at here
    cases here

/-- The first pair with key 50 is missed, and the sum from 72 to 75 reads the key before the first
one of the last leaf. -/
theorem not_scans : ∃ t, Scannable listIndex t sevenBlocks ∧
    ¬ Scans listIndex t sevenBlocks 50 50 ∧ ¬ Scans listIndex t sevenBlocks 72 75 := by
  obtain ⟨t, run, scannable⟩ := exists_seven
  refine ⟨t, scannable, ?_, ?_⟩
  · rintro ⟨⟨it, found, drains⟩, -⟩
    have two := drains 2
    have one : sevenRun.map (fun t => (t.findRange listIndex 50 50).bind fun it =>
        it.drain t.scan 2) = some (some [(50, 50)]) := by decide +kernel
    rw [run, Option.map_some, Option.some_inj, found, Option.bind_some, two] at one
    exact absurd one (by decide)
  · rintro ⟨-, result, total, -⟩
    have nothing : sevenRun.map (fun t => t.sum listIndex 72 75) = some none := by decide +kernel
    rw [run, Option.map_some, Option.some_inj, total] at nothing
    cases nothing

end Rma.Art
