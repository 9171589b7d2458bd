import SlotFs.Lib.Bytes
import SlotFs.Lib.Word

/-!
# The shared heap

`heap.c` and `llist.c`. A region of memory is cut into blocks, each with a header of 24 bytes,
which is a `node_t`, and behind its payload a footer, which points to the header. The free blocks
are the nodes of 32 doubly linked bins.

Memory is bytes, since a block can begin at any address. The bins are in `heap_t`, outside of the
region. Every call runs under `heap->lock`, so that calls follow one another.
-/

namespace SlotFs
open Bytes CWord

/-- A bin is the address of its first node, 0 for `NULL`. `stop` is `end` of `heap_t`. -/
structure Heap where
  start : Nat
  stop : Nat
  bins : Nat → Nat
  mem : Nat → BitVec 8

namespace Heap

/-! ## The fields of a node and of a footer -/

def hole (h : Heap) (node : Nat) : Nat := load h.mem node 4
def size (h : Heap) (node : Nat) : Nat := load h.mem (node + 4) 4
def next (h : Heap) (node : Nat) : Nat := load h.mem (node + 8) 8
def prev (h : Heap) (node : Nat) : Nat := load h.mem (node + 16) 8
def header (h : Heap) (foot : Nat) : Nat := load h.mem foot 8

def setHole (h : Heap) (node v : Nat) : Heap := { h with mem := store h.mem node 4 v }
def setSize (h : Heap) (node v : Nat) : Heap := { h with mem := store h.mem (node + 4) 4 v }
def setNext (h : Heap) (node v : Nat) : Heap := { h with mem := store h.mem (node + 8) 8 v }
def setPrev (h : Heap) (node v : Nat) : Heap := { h with mem := store h.mem (node + 16) 8 v }
def setHeader (h : Heap) (foot v : Nat) : Heap := { h with mem := store h.mem foot 8 v }

def getFoot (h : Heap) (node : Nat) : Nat := node + 24 + h.size node

def createFoot (h : Heap) (head : Nat) : Heap := h.setHeader (h.getFoot head) head

def setBin (h : Heap) (bin node : Nat) : Heap := { h with bins := Function.update h.bins bin node }

end Heap

/-! ## Bins -/

/-- The turns of the loop of `get_bin_index`; a `size_t` has 64 bits. -/
def shifts : Nat → Nat → Nat
  | 0, _ => 0
  | fuel + 1, sz => if sz / 2 = 0 then 0 else shifts fuel (sz / 2) + 1

def getBinIndex (sz : Nat) : Nat :=
  let sz := if sz < 4 then 4 else sz
  min (shifts 64 sz - 2) 31

namespace Heap

/-- A bound on the nodes of a bin. A walk that goes on longer has no end. -/
def walkFuel (h : Heap) : Nat := h.stop - h.start + 1

/-- The loop of `add_node`. The answer is `previous` and `current`. -/
def addWalk (h : Heap) (node : Nat) : Nat → Nat → Nat → Option (Nat × Nat)
  | 0, _, _ => none
  | fuel + 1, previous, current =>
    if current ≠ 0 ∧ h.size current ≤ h.size node then h.addWalk node fuel current (h.next current)
    else some (previous, current)

def addNode (h : Heap) (bin node : Nat) : Option Heap :=
  let h := (h.setNext node 0).setPrev node 0
  if h.bins bin = 0 then some (h.setBin bin node)
  else (h.addWalk node h.walkFuel 0 (h.bins bin)).map fun (previous, current) =>
    if current = 0 then (h.setNext previous node).setPrev node previous
    else if previous ≠ 0 then
      (((h.setNext node current).setNext previous node).setPrev node previous).setPrev current node
    else ((h.setNext node (h.bins bin)).setPrev (h.bins bin) node).setBin bin node

/-- What `remove_node` does with a node behind the first one. -/
def unlinkNode (h : Heap) (node : Nat) : Heap :=
  if h.next node = 0 then h.setNext (h.prev node) 0
  else
    let h := h.setNext (h.prev node) (h.next node)
    h.setPrev (h.next node) (h.prev node)

/-- The loop of `remove_node`. -/
def removeWalk (h : Heap) (node : Nat) : Nat → Nat → Option Heap
  | 0, _ => none
  | fuel + 1, temp =>
    if temp = 0 then some h
    else if temp = node then some (h.unlinkNode temp)
    else h.removeWalk node fuel (h.next temp)

def removeNode (h : Heap) (bin node : Nat) : Option Heap :=
  let head := h.bins bin
  if head = 0 then some h
  else if head = node then some (h.setBin bin (h.next head))
  else h.removeWalk node h.walkFuel (h.next head)

/-- The loop of `get_best_fit`, 0 for `NULL`. -/
def getBestFit (h : Heap) (size : Nat) : Nat → Nat → Option Nat
  | 0, _ => none
  | fuel + 1, temp =>
    if temp = 0 then some 0
    else if size ≤ h.size temp then some temp
    else h.getBestFit size fuel (h.next temp)

/-! ## Allocation -/

/-- The search of `do_heap_alloc` from bin `index` on: the bin, and the node or 0. -/
def findFit (h : Heap) (size : Nat) : Nat → Nat → Option (Nat × Nat)
  | 0, _ => none
  | fuel + 1, index => (h.getBestFit size h.walkFuel (h.bins index)).bind fun found =>
    if found ≠ 0 then some (index, found)
    else if 32 ≤ index + 1 then some (index, 0)
    else h.findFit size fuel (index + 1)

/-- The rest of a block that is large enough becomes a block of its own. -/
def splitNode (h : Heap) (found size : Nat) : Option Heap :=
  if h.size found - size > 36 then
    let split := found + 32 + size
    let h := (h.setSize split (h.size found - size - 32)).setHole split 1
    let h := h.createFoot split
    (h.addNode (getBinIndex (h.size split)) split).map fun h =>
      (h.setSize found size).createFoot found
  else some h

def getWilderness (h : Heap) : Nat := h.header (h.stop - 8)

def minWilderness : Nat := 0x2000
def maxWilderness : Nat := 0x1000000

/-- The heap cannot grow. -/
def expand (_ : Heap) (_sz : Nat) : Nat := 0

def contract (h : Heap) (_sz : Nat) : Heap := h

/-- The answer is the address of the payload, or 0. Where the last block is short and
`expand` fails, the block that was found is in no bin any more. -/
def doHeapAlloc (h : Heap) (size : Nat) : Option (Nat × Heap) :=
  (h.findFit size 32 (getBinIndex size)).bind fun (index, found) =>
    if found = 0 then some (0, h)
    else (h.splitNode found size).bind fun h =>
      ((h.setHole found 0).removeNode index found).map fun h =>
        let wild := h.getWilderness
        if h.size wild < minWilderness ∧ h.expand 0x1000 = 0 then (0, h)
        else
          let h := if h.size wild > maxWilderness then h.contract 0x1000 else h
          (found + 8, (h.setPrev found 0).setNext found 0)

/-! ## Release -/

/-- A free block in front takes the block in. The answer has the header of the two. -/
def mergePrev (h : Heap) (prev head : Nat) : Option (Nat × Heap) :=
  if h.hole prev ≠ 0 then
    (h.removeNode (getBinIndex (h.size prev)) prev).map fun h =>
      let h := h.setSize prev (h.size prev + (32 + h.size head))
      (prev, h.setHeader (h.getFoot head) prev)
  else some (head, h)

/-- A free block behind is taken in. -/
def mergeNext (h : Heap) (head next : Nat) : Option Heap :=
  if h.hole next ≠ 0 then
    (h.removeNode (getBinIndex (h.size next)) next).map fun h =>
      let h := h.setSize head (h.size head + (32 + h.size next))
      let h := h.setHeader (h.getFoot next) 0
      let h := (h.setSize next 0).setHole next 0
      h.setHeader (h.getFoot head) head
  else some h

/-- The block becomes a node of its bin. -/
def giveBack (h : Heap) (head : Nat) : Option Heap :=
  let h := h.setHole head 1
  h.addNode (getBinIndex (h.size head)) head

/-- The first block is not merged. -/
def doHeapFree (h : Heap) (p : Nat) : Option Heap :=
  let head := p - 8
  if head = h.start then h.giveBack head
  else
    let next := h.getFoot head + 8
    (h.mergePrev (h.header (head - 8)) head).bind fun (head, h) =>
      (h.mergeNext head next).bind fun h => h.giveBack head

end Heap

/-- `mem` is what the region and the memory around it hold before. -/
def heapInit (mem : Nat → BitVec 8) (region size : Nat) : Option Heap :=
  let h : Heap := ⟨region, region + size, fun _ => 0, mem⟩
  let h := (h.setHole region 1).setSize region (sub64 (sub64 size 24) 8)
  let h := h.createFoot region
  h.addNode (getBinIndex (h.size region)) region

end SlotFs
