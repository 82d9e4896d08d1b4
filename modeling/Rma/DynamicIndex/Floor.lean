import Rma.DynamicIndex.Multimap

/-!
# Floor queries of the dynamic index

`find_first` and `find_last` look for the greatest key that is at most the given one. The first
one descends to the leaf where the smaller keys end and may have to look at the next leaf; the
second one descends to the last leaf whose first key is at most the given one.

The entries of a leaf are read by position, and a position past the last entry is undefined.
-/

namespace Rma

namespace DynamicIndex

open Base SearchTree Node

variable {K V : Type} [LinearOrder K] [Inhabited K] [Inhabited V]

/-! ## The searches -/

/-- Whether the key at a position satisfies a condition, undefined past the last entry. -/
def testKey (elements : List (K × V)) (i : Nat) (p : K → Prop) [DecidablePred p] : Option Bool :=
  elements[i]?.map fun e => decide (p e.1)

/-- `find_first` in the leaf where the descent ends, whose successor is `next`. -/
def findFirstLeaf (elements : List (K × V)) (next : Option (List (K × V))) (key : K) :
    Option (Option (K × V)) := do
  let n := elements.length
  let i ← scanUpM (fun j => testKey elements j (· < key)) 0 n
  -- exact match
  if ← (if i < n then testKey elements i (· = key) else some false) then elements[i]?.map some
  -- the key is smaller than all those of the tree
  else if i = 0 then some none
  else
    -- with duplicates the descent may end a leaf before the actual one
    let successor := if i = n then next else none
    match successor with
    | some l =>
      if ← testKey l 0 (· = key) then l[0]?.map some else elements[i - 1]?.map some
    | none => elements[i - 1]?.map some

/-- `find_first(key, out_key, out_value)`: the pair that is output, if any. -/
def findFirst (t : DynamicIndex K V) (key : K) : Option (Option (K × V)) :=
  let leaf := descendLeaf (· < key) t.root
  findFirstLeaf leaf.elements ((t.heap.links.next leaf.address).map t.root.leafAt) key

omit [Inhabited V] in
/-- The child of an inner node to which `find_last` goes. -/
def lastChild (keys : List K) (numChildren : Nat) (key : K) : Nat :=
  let last := numChildren - 1
  if keys.getD (last - 1) default > key then
    let i := scanDown (fun j => keys.getD j default > key) last
    -- exact match
    if i > 1 ∧ keys.getD (i - 2) default = key then i - 1 else i
  else last

/-- The descent of `find_last`. -/
def descendLast (key : K) : {level : Nat} → Node K V level → Leaf K V
  | 0, .leaf l => l
  | _ + 1, .inner keys children =>
    descendLast key (children.getD (lastChild keys children.length key) default)

/-- `find_last` in the leaf where the descent ends. The position is one more than in the source. -/
def findLastLeaf (elements : List (K × V)) (key : K) : Option (Option (K × V)) := do
  let i ← scanDownO (fun j => testKey elements j (· > key)) elements.length
  if i = 0 then some none
  else if ← (if i > 1 then testKey elements (i - 2) (· = key) else some false) then
    elements[i - 2]?.map some
  else elements[i - 1]?.map some

/-- `find_last(key, out_key, out_value)`: the pair that is output, if any. -/
def findLast (t : DynamicIndex K V) (key : K) : Option (Option (K × V)) :=
  if t.heap.cardinality = 0 then some none
  else findLastLeaf (descendLast key t.root).elements key

/-! ## Floors -/

/-- The answer of a floor query: a pair with the greatest key that is at most `key`. -/
def IsFloor (l : List (K × V)) (key : K) : Option (K × V) → Prop
  | none => ∀ x ∈ l, key < x.1
  | some e => e ∈ l ∧ e.1 ≤ key ∧ ∀ x ∈ l, x.1 ≤ key → x.1 ≤ e.1

section Floors

variable {l l₁ l₂ : List (K × V)} {key : K} {e : K × V}

omit [Inhabited K] [Inhabited V] in
/-- A pair with the key itself. -/
theorem isFloor_of_eq (member : e ∈ l) (same : e.1 = key) : IsFloor l key (some e) :=
  ⟨member, same.le, fun _ _ le => le.trans same.ge⟩

omit [Inhabited K] [Inhabited V] in
/-- The last pair before the greater keys. -/
theorem isFloor_last (sorted : SortedPairs (l₁ ++ l₂)) (last : l₁.getLast? = some e)
    (below : ∀ x ∈ l₁, x.1 ≤ key) (above : ∀ x ∈ l₂, key < x.1) :
    IsFloor (l₁ ++ l₂) key (some e) := by
  obtain ⟨pre, rfl⟩ := List.getLast?_eq_some_iff.mp last
  refine ⟨by simp, below e (by simp), fun x member le => ?_⟩
  rcases List.mem_append.mp member with left | right
  · rcases List.mem_append.mp left with before | same
    · exact (SortedPairs.append_iff.mp (SortedPairs.append_iff.mp sorted).1).2.2 x before e
        (by simp)
    · rw [List.mem_singleton.mp same]
  · exact absurd le (not_le.mpr (above x right))

omit [Inhabited K] [Inhabited V] in
/-- The first pair after the smaller keys, where it has the key. -/
theorem find?_first (below : ∀ x ∈ l₁, x.1 < key) (head : l₂.head? = some e) (same : e.1 = key) :
    (l₁ ++ l₂).find? (fun x => x.1 = key) = some e := by
  obtain ⟨rest, rfl⟩ := List.head?_eq_some_iff.mp head
  rw [List.find?_append, List.find?_eq_none.mpr, Option.none_or]
  · exact List.find?_cons_of_pos (decide_eq_true same)
  · intro x member found
    exact absurd (of_decide_eq_true found) (below x member).ne

omit [LinearOrder K] [Inhabited K] [Inhabited V] in
theorem testKey_eq {i : Nat} (inside : i < l.length) (p : K → Prop) [DecidablePred p] :
    testKey l i p = some (decide (p (l[i]).1)) := by
  rw [testKey, List.getElem?_eq_getElem inside]
  rfl

/-- The scan of a sorted leaf divides it into the smaller entries and the others. -/
theorem scanUpM_keys (sorted : SortedPairs l) (key : K) :
    ∃ i ≤ l.length, scanUpM (fun j => testKey l j (· < key)) 0 l.length = some i ∧
      (∀ x ∈ l.take i, x.1 < key) ∧ ∀ x ∈ l.drop i, key ≤ x.1 := by
  have plain := scanUpM_eq (fun j => testKey l j (· < key))
    (fun j => decide ((l.getD j default).1 < key)) 0 l.length fun j _ below => by
      rw [testKey_eq (by omega), List.getD_eq_getElem _ _ (by omega)]
  rcases scanUp_spec (fun j => decide ((l.getD j default).1 < key)) 0 l.length with
    ⟨_, upper, passed, stopped⟩
  rw [plain]
  generalize scanUp (fun j => decide ((l.getD j default).1 < key)) 0 l.length = i at *
  refine ⟨i, by omega, rfl, ?_, ?_⟩
  · intro x member
    rcases List.mem_take_iff_getElem.mp member with ⟨j, inside, rfl⟩
    have less := of_decide_eq_true (passed j (Nat.zero_le _) (by omega))
    rwa [List.getD_eq_getElem _ _ (by omega)] at less
  · intro x member
    rcases List.mem_drop_iff_getElem.mp member with ⟨j, inside, rfl⟩
    have fails := not_lt.mp (of_decide_eq_false (stopped (by omega)))
    rw [List.getD_eq_getElem _ _ (by omega)] at fails
    rcases Nat.eq_zero_or_pos j with rfl | later
    · exact fails
    · exact fails.trans (List.pairwise_iff_getElem.mp sorted i (i + j) _ (by omega) (by omega))

/-- What comes after a leaf: nothing, or another leaf. -/
inductive Successor : Option (List (K × V)) → List (K × V) → Prop
  | none : Successor none []
  | some (e : K × V) (l rest : List (K × V)) : Successor (some (e :: l)) (e :: l ++ rest)

/-- The answer of `find_first` in a leaf, from the elements before and after the leaf. -/
theorem findFirstLeaf_spec {before after : List (K × V)} {next : Option (List (K × V))}
    (sorted : SortedPairs (before ++ l ++ after))
    (smaller : before ≠ [] → ∃ e rest, l = e :: rest ∧ e.1 < key)
    (notSmaller : ∀ x ∈ after, key ≤ x.1) (successor : Successor next after)
    (single : l = [] → before = [] ∧ after = []) :
    ∃ r, findFirstLeaf l next key = some r ∧ IsFloor (before ++ l ++ after) key r ∧
      ((∃ e ∈ before ++ l ++ after, e.1 = key) →
        r = (before ++ l ++ after).find? fun e => e.1 = key) := by
  have parts := SortedPairs.append_iff.mp sorted
  have sortedL := (SortedPairs.append_iff.mp parts.1).2.1
  rcases scanUpM_keys sortedL key with ⟨i, le, scan, below, above⟩
  -- the pairs before position `i` of the leaf are the smaller ones
  have split : before ++ l ++ after = (before ++ l.take i) ++ (l.drop i ++ after) := by
    rw [List.append_assoc, List.append_assoc, ← List.append_assoc (l.take i),
      List.take_append_drop]
  have less : ∀ x ∈ before ++ l.take i, x.1 < key := by
    intro x member
    rcases List.mem_append.mp member with left | inside
    · have some : before ≠ [] := List.ne_nil_of_mem left
      rcases smaller some with ⟨e, rest, rfl, lt⟩
      exact lt_of_le_of_lt ((SortedPairs.append_iff.mp parts.1).2.2 x left e (by simp)) lt
    · exact below x inside
  have geq : ∀ x ∈ l.drop i ++ after, key ≤ x.1 := fun x member =>
    (List.mem_append.mp member).elim (above x) (notSmaller x)
  have found : ∀ e, (l.drop i ++ after).head? = some e → e.1 = key →
      IsFloor (before ++ l ++ after) key (some e) ∧
        some e = (before ++ l ++ after).find? fun e => e.1 = key := by
    intro e head same
    rw [split]
    refine ⟨isFloor_of_eq ?_ same, (find?_first less head same).symm⟩
    exact List.mem_append_right _ (List.mem_of_mem_head? head)
  have missed : (∀ e, (l.drop i ++ after).head? = some e → e.1 ≠ key) →
      (∀ x ∈ l.drop i ++ after, key < x.1) ∧
        ¬∃ e ∈ before ++ l ++ after, e.1 = key := by
    intro other
    have greater : ∀ x ∈ l.drop i ++ after, key < x.1 := by
      intro x member
      rw [split] at sorted
      have tail := (SortedPairs.append_iff.mp sorted).2.1
      cases whole : l.drop i ++ after with
      | nil =>
          rw [whole] at member
          cases member
      | cons y rest =>
          have first := lt_of_le_of_ne (geq y (by simp [whole])) (other y (by simp [whole])).symm
          rw [whole] at tail member
          exact first.trans_le (tail.head_le x member)
    refine ⟨greater, ?_⟩
    rintro ⟨e, member, same⟩
    rw [split] at member
    rcases List.mem_append.mp member with left | right
    · exact (less e left).ne same
    · exact (greater e right).ne same.symm
  have predecessor : 0 < i → (∀ e, (l.drop i ++ after).head? = some e → e.1 ≠ key) →
      ∃ r, l[i - 1]?.map some = some r ∧ IsFloor (before ++ l ++ after) key r ∧
        ((∃ e ∈ before ++ l ++ after, e.1 = key) →
          r = (before ++ l ++ after).find? fun e => e.1 = key) := by
    intro positive other
    have inside : i - 1 < l.length := by omega
    have last : (before ++ l.take i).getLast? = some l[i - 1] := by
      have whole := List.take_concat_get' l (i - 1) inside
      rw [Nat.sub_add_cancel positive] at whole
      rw [← whole, ← List.append_assoc, List.getLast?_concat]
    rw [List.getElem?_eq_getElem inside, Option.map_some]
    refine ⟨_, rfl, ?_, fun stored => absurd stored (missed other).2⟩
    rw [split] at sorted ⊢
    exact isFloor_last sorted last (fun x member => (less x member).le) (missed other).1
  have nothing : i = 0 → (∀ e, (l.drop i ++ after).head? = some e → e.1 ≠ key) → before = [] →
      IsFloor (before ++ l ++ after) key none ∧
        ((∃ e ∈ before ++ l ++ after, e.1 = key) →
          none = (before ++ l ++ after).find? fun e => e.1 = key) := by
    intro first other alone
    refine ⟨?_, fun stored => absurd stored (missed other).2⟩
    rw [split, first, alone]
    rw [first] at missed other
    exact (missed other).1
  unfold findFirstLeaf
  simp only [scan, Option.bind_eq_bind, Option.bind_some]
  by_cases inside : i < l.length
  · have head : (l.drop i ++ after).head? = some l[i] := by
      rw [List.drop_eq_getElem_cons inside]
      rfl
    rw [if_pos inside, testKey_eq inside, Option.bind_some]
    by_cases same : (l[i]).1 = key
    · have hit := found _ head same
      rw [if_pos (decide_eq_true same), List.getElem?_eq_getElem inside, Option.map_some]
      exact ⟨_, rfl, hit.1, fun _ => hit.2⟩
    · have other : ∀ e, (l.drop i ++ after).head? = some e → e.1 ≠ key := by
        intro e first
        rw [head, Option.some.injEq] at first
        rwa [← first]
      rw [if_neg (by simpa using same)]
      by_cases first : i = 0
      · -- the leaf begins with a greater key, so it is the first one
        have alone : before = [] := by
          by_contra some
          rcases smaller some with ⟨e, rest, rfl, lt⟩
          exact absurd lt (not_lt.mpr (above e (by simp [first])))
        rw [if_pos first]
        exact ⟨none, rfl, nothing first other alone⟩
      · have notLast : i ≠ l.length := inside.ne
        rw [if_neg first]
        simp only [if_neg notLast]
        exact predecessor (Nat.pos_of_ne_zero first) other
  · obtain rfl : i = l.length := by omega
    rw [if_neg inside, Option.bind_some, if_neg Bool.false_ne_true]
    have drop : l.drop l.length ++ after = after := by simp
    rw [drop] at found missed predecessor nothing
    by_cases first : l.length = 0
    · -- only the leaf of an empty tree is empty
      have alone := single (List.eq_nil_of_length_eq_zero first)
      rw [if_pos first]
      exact ⟨none, rfl, nothing first (by simp [alone.2]) alone.1⟩
    · rw [if_neg first]
      simp only [if_true]
      cases successor with
      | none => exact predecessor (Nat.pos_of_ne_zero first) (by simp)
      | some e rest more =>
          have one : 0 < (e :: rest).length := Nat.succ_pos _
          dsimp only
          rw [testKey_eq one, Option.bind_some, List.getElem_cons_zero]
          by_cases same : e.1 = key
          · have hit := found e rfl same
            rw [if_pos (decide_eq_true same)]
            exact ⟨_, rfl, hit.1, fun _ => hit.2⟩
          · rw [if_neg (by simpa using same)]
            apply predecessor (Nat.pos_of_ne_zero first)
            intro e' head
            cases head
            exact same

/-- The answer of `find_last` in a leaf that begins the greater keys, or has one key only. -/
theorem findLastLeaf_spec {before after : List (K × V)} (sorted : SortedPairs (before ++ l ++ after))
    (some : l ≠ []) (smaller : before ≠ [] → ∃ e rest, l = e :: rest ∧ e.1 ≤ key)
    (greater : (∀ x ∈ after, key < x.1) ∨ ∀ x ∈ l, x.1 = key) :
    ∃ r, findLastLeaf l key = Option.some r ∧ IsFloor (before ++ l ++ after) key r := by
  have sortedL := (SortedPairs.append_iff.mp (SortedPairs.append_iff.mp sorted).1).2.1
  have plain := scanDownO_eq (fun j => testKey l j (· > key))
    (fun j => decide ((l.getD j default).1 > key)) l.length fun j below => by
      rw [testKey_eq below, List.getD_eq_getElem _ _ below]
  rcases scanDown_spec (fun j => decide ((l.getD j default).1 > key)) l.length with
    ⟨upper, passed, stopped⟩
  generalize scanDown (fun j => decide ((l.getD j default).1 > key)) l.length = i at *
  have above : ∀ x ∈ l.drop i, key < x.1 := by
    intro x member
    rcases List.mem_drop_iff_getElem.mp member with ⟨j, inside, rfl⟩
    have more := of_decide_eq_true (passed (i + j) (by omega) (by omega))
    rwa [List.getD_eq_getElem _ _ (by omega)] at more
  have below : ∀ j (inside : j < l.length), j < i → (l[j]).1 ≤ key := by
    intro j inside before
    have last := not_lt.mp (of_decide_eq_false (stopped (by omega)))
    rw [List.getD_eq_getElem _ _ (by omega)] at last
    rcases Nat.eq_or_lt_of_le (show j ≤ i - 1 by omega) with same | earlier
    · subst same
      exact last
    · exact (List.pairwise_iff_getElem.mp sortedL j (i - 1) _ (by omega) earlier).trans last
  unfold findLastLeaf
  simp only [plain, Option.bind_eq_bind, Option.bind_some]
  have mem : ∀ j (inside : j < l.length), l[j] ∈ before ++ l ++ after := by
    intro j inside
    simp
  by_cases first : i = 0
  · -- every key of the leaf is greater
    subst first
    rw [List.drop_zero] at above
    obtain ⟨e, rest, rfl⟩ := List.exists_cons_of_ne_nil some
    have rests : ∀ x ∈ after, key < x.1 := by
      rcases greater with greater | equal
      · exact greater
      · exact absurd (equal e (by simp)) (above e (by simp)).ne'
    have alone : before = [] := by
      by_contra some
      rcases smaller some with ⟨e', rest', same, le⟩
      cases same
      exact absurd le (not_le.mpr (above e (by simp)))
    rw [if_pos rfl, alone]
    exact ⟨none, rfl, fun x member => (List.mem_append.mp member).elim (above x) (rests x)⟩
  · have inside : i - 1 < l.length := by omega
    have answer : ∃ r, l[i - 1]?.map Option.some = Option.some r ∧
        IsFloor (before ++ l ++ after) key r := by
      rw [List.getElem?_eq_getElem inside, Option.map_some]
      refine ⟨_, rfl, ?_⟩
      rcases greater with greater | equal
      · have split : before ++ l ++ after = (before ++ l.take i) ++ (l.drop i ++ after) := by
          rw [List.append_assoc, List.append_assoc, ← List.append_assoc (l.take i),
            List.take_append_drop]
        have last : (before ++ l.take i).getLast? = Option.some l[i - 1] := by
          have whole := List.take_concat_get' l (i - 1) inside
          rw [Nat.sub_add_cancel (Nat.pos_of_ne_zero first)] at whole
          rw [← whole, ← List.append_assoc, List.getLast?_concat]
        rw [split] at sorted ⊢
        apply isFloor_last sorted last
        · intro x member
          rcases List.mem_append.mp member with left | right
          · rcases smaller (List.ne_nil_of_mem left) with ⟨e, rest, rfl, le⟩
            have ordered := SortedPairs.append_iff.mp (SortedPairs.append_iff.mp sorted).1
            exact (ordered.2.2 x left e (by
              rw [List.take_cons (Nat.pos_of_ne_zero first)]; simp)).trans le
          · rcases List.mem_take_iff_getElem.mp right with ⟨j, lt, rfl⟩
            exact below j (by omega) (by omega)
        · exact fun x member => (List.mem_append.mp member).elim (above x) (greater x)
      · exact isFloor_of_eq (mem _ inside) (equal _ (List.getElem_mem inside))
    rw [if_neg first]
    by_cases several : i > 1
    · have inside' : i - 2 < l.length := by omega
      rw [if_pos several, testKey_eq inside', Option.bind_some]
      by_cases same : (l[i - 2]).1 = key
      · rw [if_pos (decide_eq_true same), List.getElem?_eq_getElem inside', Option.map_some]
        exact ⟨_, rfl, isFloor_of_eq (mem _ inside') same⟩
      · rw [if_neg (by simpa using same)]
        exact answer
    · rw [if_neg several, Option.bind_some, if_neg Bool.false_ne_true]
      exact answer

end Floors

/-! ## The descents -/

section Descents

variable {b : Limits} {level : Nat} {key : K} {children : List (Node K V level)}

omit [LinearOrder K] in
/-- The keys on both sides of a child are its minimum and that of the next child. -/
theorem separators_around (before : List (Node K V level)) (c : Node K V level)
    (after : List (Node K V level)) :
    (before ≠ [] →
      (separators minKey (before ++ c :: after)).getD (before.length - 1) default = c.minKey) ∧
    ∀ d rest, after = d :: rest →
      (separators minKey (before ++ c :: after)).getD before.length default = d.minKey := by
  constructor
  · intro some
    rcases List.eq_nil_or_concat before with rfl | ⟨pre, x, rfl⟩
    · exact absurd rfl some
    · simp only [List.concat_eq_append, List.length_append, List.length_singleton,
        Nat.add_sub_cancel, List.append_assoc, List.singleton_append]
      exact separators_getD default
  · rintro d rest rfl
    exact separators_getD default

/-- The child to which `find_last` goes: the last one whose minimum is at most the key, or one
before it whose minimum is the key. -/
theorem lastChild_spec (several : 2 ≤ children.length) (key : K) :
    ∃ before c after, children = before ++ c :: after ∧
      lastChild (separators minKey children) children.length key = before.length ∧
      ((before ≠ [] → c.minKey ≤ key) ∧ (∀ d rest, after = d :: rest → ¬d.minKey ≤ key) ∨
        c.minKey = key ∧ before ≠ [] ∧ ∃ d rest, after = d :: rest ∧ d.minKey ≤ key) := by
  rcases scanDown_spec (fun j => decide ((separators minKey children).getD j default > key))
    (children.length - 1) with ⟨upper, passed, stopped⟩
  unfold lastChild
  simp only
  by_cases last : (separators minKey children).getD (children.length - 1 - 1) default > key
  · rw [if_pos last]
    generalize scanDown (fun j => decide ((separators minKey children).getD j default > key))
      (children.length - 1) = i at *
    by_cases exact_ : i > 1 ∧ (separators minKey children).getD (i - 2) default = key
    · -- the child before has the key as its minimum
      rw [if_pos exact_]
      rcases exists_focus (show i - 1 < children.length by omega) with
        ⟨before, c, after, rfl, length⟩
      rcases separators_around before c after with ⟨own, next⟩
      have some : before ≠ [] := List.ne_nil_of_length_pos (by omega)
      have place : before.length - 1 = i - 2 := by omega
      refine ⟨before, c, after, rfl, length.symm, Or.inr ⟨?_, some, ?_⟩⟩
      · rw [← own some, place]
        exact exact_.2
      · have fails := not_lt.mp (of_decide_eq_false (stopped (by omega)))
        cases after with
        | nil =>
            simp only [List.length_append, List.length_singleton] at upper
            omega
        | cons d rest =>
            refine ⟨d, rest, rfl, ?_⟩
            rw [← next d rest rfl, length]
            exact fails
    · rw [if_neg exact_]
      rcases exists_focus (show i < children.length by omega) with ⟨before, c, after, rfl, length⟩
      rcases separators_around before c after with ⟨own, next⟩
      refine ⟨before, c, after, rfl, length.symm, Or.inl ⟨?_, ?_⟩⟩
      · intro some
        have positive := List.length_pos_iff.mpr some
        rw [← own some, length]
        exact not_lt.mp (of_decide_eq_false (stopped (by omega)))
      · intro d rest split
        rw [← next d rest split, length]
        subst split
        exact not_le.mpr (of_decide_eq_true (passed i le_rfl (by
          simp only [List.length_append, List.length_cons] at upper ⊢
          omega)))
  · rw [if_neg last]
    rcases exists_focus (show children.length - 1 < children.length by omega) with
      ⟨before, c, after, rfl, length⟩
    rcases separators_around before c after with ⟨own, _⟩
    have none : after = [] := by
      apply List.eq_nil_of_length_eq_zero
      simp only [List.length_append, List.length_cons] at length
      omega
    subst none
    refine ⟨before, c, [], rfl, length.symm, Or.inl ⟨?_, fun _ _ none => nomatch none⟩⟩
    intro some
    rw [← own some, length]
    exact not_lt.mp last

/-- Where the descent of `find_last` ends: before the greater keys, or in a leaf that has no other
key than the one searched. -/
theorem descendLast_spec {n : Node K V level} (good : Good b n) (sorted : SortedPairs n.elements)
    (several : ∀ level, 2 ≤ b.lower level) (nonempty : 0 < level → 2 ≤ n.size) (key : K) :
    ∃ pre post, AtLeaf (· ≤ key) n pre (descendLast key n) post ∨
      n.leafNodes = pre ++ descendLast key n :: post ∧
        ∀ x ∈ (descendLast key n).elements, x.1 = key := by
  induction level with
  | zero => exact ⟨[], [], Or.inl ⟨rfl, fun none => absurd rfl none, fun _ _ none => nomatch none⟩⟩
  | succ level ih =>
      cases n using Node.inner_cases with
      | inner keys children =>
          rcases good_inner.mp good with ⟨rfl, fits⟩
          rcases lastChild_spec (nonempty (Nat.succ_pos level)) key with
            ⟨before, c, after, rfl, index, which⟩
          have fitsC := fits c (by simp)
          rcases sorted_context sorted fitsC.elements_ne_nil fun d member =>
            (fits d (by simp [member])).elements_ne_nil with ⟨_, above, sortedC⟩
          rcases ih fitsC.1 sortedC (fun _ => (several level).trans fitsC.2.1) with
            ⟨pre, post, at_⟩
          have step : descendLast key (.inner (separators minKey (before ++ c :: after))
              (before ++ c :: after)) = descendLast key c := by
            simp only [descendLast, index, getD_focus]
          have leaves : c.leafNodes = pre ++ descendLast key c :: post :=
            at_.elim AtLeaf.leaves And.left
          have whole : (Node.inner (separators minKey (before ++ c :: after))
              (before ++ c :: after)).leafNodes = before.flatMap leafNodes ++ pre ++
                descendLast key c :: (post ++ after.flatMap leafNodes) := by
            rw [leafNodes_inner, List.flatMap_append, List.flatMap_cons, leaves]
            simp
          rw [step]
          refine ⟨before.flatMap leafNodes ++ pre, post ++ after.flatMap leafNodes, ?_⟩
          rcases which with ⟨satisfied, fails⟩ | ⟨same, _, d, rest, next, le⟩
          · rcases at_ with at_ | ⟨_, equal⟩
            · exact Or.inl (at_.lift fits satisfied fails)
            · exact Or.inr ⟨whole, equal⟩
          · -- the keys of the child are between its minimum and that of the next one
            refine Or.inr ⟨whole, fun x member => ?_⟩
            have inside : x ∈ c.elements := by
              rw [elements_eq, leaves]
              simp [member]
            subst next
            have upper : x.1 ≤ d.minKey := by
              rw [elements_inner, List.append_cons] at sorted
              have below := (sorted_context sorted (fits d (by simp)).elements_ne_nil
                fun d' member => (fits d' (by simp [member])).elements_ne_nil).1
              exact below x (by simp [inside])
            rcases exists_minKey fitsC.elements_ne_nil with ⟨e, l, elements, min⟩
            rw [elements] at sortedC inside
            have lower := sortedC.head_le x inside
            rw [← min, same] at lower
            exact le_antisymm (upper.trans le) lower

end Descents

/-! ## Floor queries of a valid index -/

section Queries

variable {t : DynamicIndex K V}

theorem Valid.several (valid : Valid t) : 0 < t.levels → 2 ≤ t.root.size := by
  intro above
  have size := valid.size
  rw [RootSize, if_neg (Nat.ne_of_gt above)] at size
  exact size.1

/-- Only a tree that is a single leaf has an empty leaf. -/
theorem Valid.leaves (valid : Valid t) :
    (∃ l, t.root.leafNodes = [l]) ∨ ∀ m ∈ t.root.leafNodes, m.elements ≠ [] := by
  rcases t with ⟨b, level, root, heap⟩
  cases level with
  | zero => exact Or.inl ⟨_, rfl⟩
  | succ level =>
      cases root using Node.inner_cases with
      | inner keys children =>
          refine Or.inr fun m member => ?_
          rw [leafNodes_inner, List.mem_flatMap] at member
          rcases member with ⟨c, child, below⟩
          exact ((good_inner.mp valid.good).2 c child).leaves_ne_nil m below

/-- What comes after the leaf in the chain. -/
theorem Valid.successor (valid : Valid t) {pre post : List (Leaf K V)} {l : Leaf K V}
    (leaves : t.root.leafNodes = pre ++ l :: post)
    (some : ∀ m ∈ post, m.elements ≠ []) :
    Successor ((t.heap.links.next l.address).map t.root.leafAt)
      (post.flatMap Leaf.elements) := by
  rw [next_leaf valid.owns.chain leaves]
  cases post with
  | nil => exact Successor.none
  | cons m post =>
      obtain ⟨e, rest, elements⟩ := List.exists_cons_of_ne_nil (some m (by simp))
      rw [List.head?_cons, Option.map_some, Option.map_some,
        leafAt_eq valid.owns.chain.nodup (by simp [leaves]), List.flatMap_cons, elements]
      exact Successor.some e rest _

theorem Valid.findFirst_floor (valid : Valid t) (key : K) :
    ∃ r, t.findFirst key = some r ∧ IsFloor t.root.elements key r ∧
      ((∃ e ∈ t.root.elements, e.1 = key) →
        r = t.root.elements.find? fun e => e.1 = key) := by
  have nonempty : 0 < t.levels → 0 < t.root.size := fun above =>
    Nat.lt_of_lt_of_le Nat.two_pos (valid.several above)
  rcases descendLeaf_spec (· < key) valid.good nonempty with ⟨pre, post, at_⟩
  unfold findFirst
  simp only
  generalize descendLeaf (· < key) t.root = l at *
  rcases valid.leaves with ⟨l', single⟩ | some
  · have alone := at_.leaves
    rw [single] at alone
    obtain ⟨rfl, rfl, rfl⟩ : pre = [] ∧ l' = l ∧ post = [] := by
      cases pre with
      | nil => simpa using alone
      | cons m pre => simp at alone
    have elements : t.root.elements = [] ++ l'.elements ++ [] := by
      rw [elements_eq, single]
      simp
    have sorted := valid.sorted
    rw [elements] at sorted ⊢
    exact findFirstLeaf_spec sorted (fun none => absurd rfl none) (by simp)
      (valid.successor at_.leaves (by simp)) fun _ => ⟨rfl, rfl⟩
  · rcases leaf_context at_.leaves valid.sorted some with ⟨split, _, _, after⟩
    have sorted := valid.sorted
    obtain ⟨e, rest, elements⟩ := List.exists_cons_of_ne_nil (some l (by simp [at_.leaves]))
    rw [split] at sorted ⊢
    apply findFirstLeaf_spec sorted
    · intro some
      refine ⟨e, rest, elements, ?_⟩
      have less := at_.before (by rintro rfl; exact some rfl)
      rwa [elements] at less
    · intro x member
      cases post with
      | nil => cases member
      | cons m post => exact (not_lt.mp (at_.after m post rfl)).trans ((after m post rfl).2 x member)
    · exact valid.successor at_.leaves fun m member => some m (by simp [at_.leaves, member])
    · intro none
      rw [elements] at none
      cases none

theorem Valid.findLast_floor (valid : Valid t) (key : K) :
    ∃ r, t.findLast key = some r ∧ IsFloor t.root.elements key r := by
  unfold findLast
  by_cases empty : t.heap.cardinality = 0
  · have none : t.root.elements = [] := by
      apply List.eq_nil_of_length_eq_zero
      have count := valid.cardinality
      omega
    rw [if_pos empty, none]
    exact ⟨Option.none, rfl, fun _ member => nomatch member⟩
  · have stored : t.root.elements ≠ [] := by
      intro none
      have count := valid.cardinality
      rw [none] at count
      exact empty count
    have some : ∀ m ∈ t.root.leafNodes, m.elements ≠ [] := by
      rcases valid.leaves with ⟨l, single⟩ | some
      · intro m member none
        rw [single, List.mem_singleton] at member
        rw [elements_eq, single, List.flatMap_singleton, ← member] at stored
        exact stored none
      · exact some
    have limits : ∀ level, 2 ≤ t.bounds.limits.lower level := t.bounds.two_le_lower
    rcases descendLast_spec valid.good valid.sorted limits valid.several key with
      ⟨pre, post, which⟩
    rw [if_neg empty]
    generalize descendLast key t.root = l at *
    have leaves : t.root.leafNodes = pre ++ l :: post := which.elim AtLeaf.leaves And.left
    rcases leaf_context leaves valid.sorted some with ⟨split, _, before, after⟩
    have sorted := valid.sorted
    have nonempty := some l (by simp [leaves])
    obtain ⟨e, rest, elements⟩ := List.exists_cons_of_ne_nil nonempty
    rw [split] at sorted ⊢
    apply findLastLeaf_spec sorted nonempty
    · intro some
      refine ⟨e, rest, elements, ?_⟩
      rcases which with at_ | ⟨_, equal⟩
      · have le := at_.before (by rintro rfl; exact some rfl)
        rwa [elements] at le
      · exact (equal e (by simp [elements])).le
    · rcases which with at_ | ⟨_, equal⟩
      · refine Or.inl fun x member => ?_
        cases post with
        | nil => cases member
        | cons m post =>
            exact (not_le.mp (at_.after m post rfl)).trans_le ((after m post rfl).2 x member)
      · exact Or.inr equal

end Queries

/-- **Floor queries are exact.** After every sequence of operations, `find_first` and `find_last`
answer a pair with the greatest stored key that is at most the given one, or that there is none;
where the key is stored, `find_first` answers the first such pair of the chain of the leaves. -/
theorem dynamicIndex_run_floor (b : Bounds) (ops : List (Op K V)) (key : K) :
    let t := run b ops
    let l := readChain t.root t.heap.links t.root.leaves.length
    ∃ first last, t.findFirst key = some first ∧ t.findLast key = some last ∧
      IsFloor l key first ∧ IsFloor l key last ∧
      ((∃ e ∈ l, e.1 = key) → first = l.find? fun e => e.1 = key) := by
  have valid : Valid (run b ops) := by
    refine List.foldlRecOn (motive := fun t => Valid t) ops perform (empty_valid b) ?_
    exact fun t valid op _ => (perform_valid valid op).1
  rcases valid.findFirst_floor key with ⟨first, run₁, floor₁, least⟩
  rcases valid.findLast_floor key with ⟨last, run₂, floor₂⟩
  simp only
  rw [readChain_eq valid.owns.chain le_rfl]
  exact ⟨first, last, run₁, run₂, floor₁, floor₂, least⟩

end DynamicIndex

end Rma
