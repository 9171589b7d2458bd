import SlotFs.Lib.Word

/-!
# The block index

`btree.c`: a radix tree with 256 branches a node. Nodes live in a heap and carry
a link to their parent, over which `btree_next` climbs from one leaf to the
next. A height-0 node holds the values, and the tree grows at the root until the
range to be set fits below it.
-/

namespace SlotFs
open CWord

/-- An allocator of fixed-size objects: request number `asked` is answered with
a fresh object, or with `NULL` where it is not granted. -/
structure Arena where
  asked : Nat
  grants : Nat → Bool

def Arena.alloc (a : Arena) : Option Nat × Arena :=
  (if a.grants a.asked then some a.asked else none, { a with asked := a.asked + 1 })

/-- The cells of `children` hold nodes, or values at height 0. The array has 256 of
them: what is behind it reads as `NULL` here, and in the code as whatever lies there.
Results about a lookup ask that it stays inside. -/
structure BtreeNode where
  parent : Option Nat
  height : Nat
  branchIndex : Nat
  start : Nat
  children : Nat → Option Nat

structure Btree where
  root : Nat
  height : Nat
  nodes : Nat → BtreeNode
  arena : Arena

/-- The table `max_keys`; a read outside of it is taken to give 0. -/
def maxKeys (i : Nat) : Nat := if i < 10 then wrap64 (256 ^ (i + 1)) else 0

def Btree.setNode (t : Btree) (n : Nat) (node : BtreeNode) : Btree :=
  { t with nodes := Function.update t.nodes n node }

def Btree.setChild (t : Btree) (n branch : Nat) (ptr : Option Nat) : Btree :=
  t.setNode n { t.nodes n with children := Function.update (t.nodes n).children branch ptr }

def enomem : Int := -12

def btreeNodeCreate (t : Btree) (parent : Option Nat) (branch : Nat) : Option Nat × Btree :=
  match t.arena.alloc with
  | (none, arena) => (none, { t with arena })
  | (some n, arena) =>
    let t := { t with arena }
    match parent with
    | none => (some n, t.setNode n ⟨none, 0, 0, 0, fun _ => none⟩)
    | some p =>
      let height := sub64 (t.nodes p).height 1
      let start := wrap64 ((t.nodes p).start + branch * maxKeys (sub64 height 1))
      (some n, (t.setNode n ⟨some p, height, branch, start, fun _ => none⟩).setChild p branch (some n))

/-- Requests are numbered from the tree's own first one. -/
def btreeCreate (grants : Nat → Bool) : Option Btree :=
  match btreeNodeCreate ⟨0, 0, fun _ => ⟨none, 0, 0, 0, fun _ => none⟩, ⟨0, grants⟩⟩ none 0 with
  | (some root, t) => some { t with root }
  | (none, _) => none

/-- Up from a node until a link that is not the last of its parent: the node
reached and the branch it was reached from. -/
def nextClimb (t : Btree) : Nat → Nat → Nat → Nat × Nat
  | 0, node, parentIndex => (node, parentIndex)
  | fuel + 1, node, parentIndex =>
    match (t.nodes node).parent with
    | none => (node, parentIndex)
    | some p =>
      let parentIndex := (t.nodes node).branchIndex
      if parentIndex + 1 < 256 then (p, parentIndex) else nextClimb t fuel p parentIndex

/-- Down through `branch`, and from there along the leftmost children. -/
def nextDescend (create : Bool) : Nat → Btree → Nat → Nat → Int × Option (Nat × Nat) × Btree
  | fuel, t, node, branch =>
    if (t.nodes node).height = 0 then (0, some (node, 0), t)
    else
      match fuel with
      | 0 => (0, none, t)
      | fuel + 1 =>
        match (t.nodes node).children branch with
        | some child => nextDescend create fuel t child 0
        | none =>
          if create then
            match btreeNodeCreate t (some node) branch with
            | (some child, t) => nextDescend create fuel t child 0
            | (none, t) => (enomem, none, t)
          else (0, none, t)

/-- The position after `(node, index)`, which may be none. -/
def btreeNext (t : Btree) (node index : Nat) (create : Bool) : Int × Option (Nat × Nat) × Btree :=
  if index + 1 < 256 then
    if !create && ((t.nodes node).children (index + 1)).isNone then (0, none, t)
    else (0, some (node, index + 1), t)
  else
    let (node, parentIndex) := nextClimb t t.height node (t.nodes node).branchIndex
    if (t.nodes node).parent = none ∧ parentIndex + 1 = 256 then (0, none, t)
    else nextDescend create t.height t node (parentIndex + 1)

def posLoop (create : Bool) : Nat → Btree → Nat → Nat → Int × Option (Nat × Nat) × Btree
  | fuel, t, node, key =>
    if (t.nodes node).height = 0 then (0, some (node, key), t)
    else
      match fuel with
      | 0 => (0, none, t)
      | fuel + 1 =>
        let span := maxKeys ((t.nodes node).height - 1)
        match (t.nodes node).children (key / span) with
        | some child => posLoop create fuel t child (key % span)
        | none =>
          if create then
            match btreeNodeCreate t (some node) (key / span) with
            | (some child, t) => posLoop create fuel t child (key % span)
            | (none, t) => (enomem, none, t)
          else (0, none, t)

def btreePos (t : Btree) (key : Nat) (create : Bool) : Int × Option (Nat × Nat) × Btree :=
  posLoop create t.height t t.root key

/-- A new root over the old one. The code does not look at whether the node
was granted: `none` is its access through `NULL`. -/
def btreeExpand (t : Btree) : Option Btree :=
  match btreeNodeCreate t none 0 with
  | (none, _) => none
  | (some newRoot, t) =>
    let t := t.setChild newRoot 0 (some t.root)
    let t := t.setNode t.root { t.nodes t.root with parent := some newRoot }
    let t := { t with root := newRoot, height := t.height + 1 }
    some (t.setNode newRoot { t.nodes newRoot with height := t.height, branchIndex := 0, start := 0 })

/-- The loop in front of an insertion; `none` when it leaves the table
`max_keys` or a root is not granted. -/
def growLoop (limit : Nat) : Nat → Btree → Option Btree
  | 0, _ => none
  | fuel + 1, t =>
    if limit ≥ maxKeys t.height then (btreeExpand t).bind (growLoop limit fuel) else some t

def btreeGrow (t : Btree) (limit : Nat) : Option Btree := growLoop limit (10 - t.height) t

def btreeSet (t : Btree) (key : Nat) (ptr : Option Nat) : Option (Int × Btree) :=
  (btreeGrow t key).bind fun t =>
    match btreePos t key true with
    | (ret, pos, t) =>
      if ret ≠ 0 then some (ret, t)
      else pos.map fun pos => (0, t.setChild pos.1 pos.2 ptr)

def setRangeLoop {σ : Type} (callback : Nat → Int → σ → Int × σ) (ptr : Option Nat) (stop : Nat) :
    Nat → Btree → σ → Nat × Nat → Nat → Option (Int × Btree × σ)
  | 0, _, _, _, _ => none
  | fuel + 1, t, s, (node, index), start =>
    let (r, s) := match (t.nodes node).children index with
      | some old => callback old (toInt32 start) s
      | none => (0, s)
    if r ≠ 0 then some (-1, t, s)
    else
      match btreeNext (t.setChild node index ptr) node index true with
      | (ret, pos, t) =>
        if ret ≠ 0 then some (ret, t, s)
        else if start + 1 < stop then
          pos.bind fun pos => setRangeLoop callback ptr stop fuel t s pos (start + 1)
        else some (0, t, s)

/-- The callback gets the key as an `int`. -/
def btreeSetRangeCallback {σ : Type} (t : Btree) (start stop : Nat) (ptr : Option Nat)
    (callback : Nat → Int → σ → Int × σ) (s : σ) : Option (Int × Btree × σ) :=
  if start ≥ stop then some (-1, t, s)
  else
    (btreeGrow t stop).bind fun t =>
      match btreePos t start true with
      | (ret, pos, t) =>
        if ret ≠ 0 then some (ret, t, s)
        else pos.bind fun pos => setRangeLoop callback ptr stop (stop - start) t s pos start

/-- Without a callback. -/
def btreeSetRange (t : Btree) (start stop : Nat) (ptr : Option Nat) : Option (Int × Btree) :=
  (btreeSetRangeCallback t start stop ptr (fun _ _ s => (0, s)) ()).map fun (ret, t, _) => (ret, t)

def getLoop (t : Btree) : Nat → Nat → Nat → Option Nat
  | fuel, node, key =>
    if (t.nodes node).height = 0 then (t.nodes node).children key
    else
      match fuel with
      | 0 => none
      | fuel + 1 =>
        let span := maxKeys ((t.nodes node).height - 1)
        match (t.nodes node).children (key / span) with
        | some child => getLoop t fuel child (key % span)
        | none => none

/-- For a key of `maxKeys t.height` or more the first cell is outside of the array. -/
def btreeGet (t : Btree) (key : Nat) : Option Nat := getLoop t t.height t.root key

/-- A place in a tree, and the key it was found for. -/
structure BtreePtr where
  node : Option Nat
  index : Nat
  key : Nat

/-- The cell of `key`, from the place found last; `none` is `NULL`. The tree is not
grown for the key. -/
def btreeGetPtrHint (t : Btree) (key : Nat) (hint : BtreePtr) :
    Option (Nat × Nat) × Btree × BtreePtr :=
  let found := match hint.node with
    | none => btreePos t key true
    | some node =>
      if hint.key = key then (0, some (node, hint.index), t)
      else if key = wrap64 (hint.key + 1) then btreeNext t node hint.index true
      else btreePos t key true
  match found with
  | (0, some (node, index), t) => (some (node, index), t, ⟨some node, index, key⟩)
  | (_, _, t) => (none, t, hint)

def btreeGetHint (t : Btree) (key : Nat) (hint : BtreePtr) : Option Nat × Btree × BtreePtr :=
  match btreeGetPtrHint t key hint with
  | (some (node, index), t, hint) => ((t.nodes node).children index, t, hint)
  | (none, t, hint) => (none, t, hint)

/-- The position is copied to the hint in every turn, but `btree_next` leaves its `key` alone. -/
def setRangeHintLoop {σ : Type} (callback : Nat → σ → Int × σ) (ptr : Option Nat) (stop key : Nat) :
    Nat → Btree → σ → BtreePtr → Nat × Nat → Nat → Option (Int × Btree × BtreePtr × σ)
  | 0, _, _, _, _, _ => none
  | fuel + 1, t, s, hint, (node, index), start =>
    let (r, s) := match (t.nodes node).children index with
      | some old => callback old s
      | none => (0, s)
    if r ≠ 0 then some (-1, t, hint, s)
    else
      let hint := ⟨some node, index, key⟩
      match btreeNext (t.setChild node index ptr) node index true with
      | (ret, pos, t) =>
        if ret ≠ 0 then some (ret, t, hint, s)
        else if start + 1 < stop then
          pos.bind fun pos => setRangeHintLoop callback ptr stop key fuel t s hint pos (start + 1)
        else some (0, t, hint, s)

/-- This callback does not get the key. -/
def btreeSetRangeHintCallbak {σ : Type} (t : Btree) (start stop : Nat) (ptr : Option Nat)
    (hint : BtreePtr) (callback : Nat → σ → Int × σ) (s : σ) :
    Option (Int × Btree × BtreePtr × σ) :=
  if start ≥ stop then some (-1, t, hint, s)
  else
    (btreeGrow t stop).bind fun t =>
      match btreeGetPtrHint t start hint with
      | (none, t, hint) => some (-1, t, hint, s)
      | (some pos, t, hint) =>
        setRangeHintLoop callback ptr stop hint.key (stop - start) t s hint pos start

end SlotFs
