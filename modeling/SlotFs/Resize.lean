import SlotFs.FileRead
import SlotFs.Files
import SlotFs.JournalRecords

/-!
# Changing the size of a file

`inode_resize` of `inode.c`. A larger size gives the file blocks behind its end, a
smaller one takes the entries behind the cut out of the log, under the journal.
Neither changes `i_size`.

`file_remove_entry` gives an entry back to its arena before it takes it off the list,
so the list is followed here link by link.
-/

namespace SlotFs
open CWord Function List Option

variable {ebuf ebuf' : List EntryUnit} {env : Env} {fe fuel n newSize start ts : Nat} {inode inode' : Inode}
  {links : Links} {ok : Maps → Nat → Nat → Nat → Prop} {pmLogHead ret : Int} {runs : List (Nat × Nat)}
  {s s' : LinkedFile} {sbi sbi' : Sbi}

/-! ## Removing an entry from a list of links -/

/-- Where a link of `list.h` leads: to the head in the inode, to an entry of the arena,
or nowhere, which is `NULL` and both poisons. -/
inductive Link
  | head
  | entry (fe : Nat)
  | bad
  deriving DecidableEq

/-- The links of the entries, and the first entry on the free list of the arena. -/
structure Links where
  next : Link → Link
  prev : Link → Link
  freeList : Link

/-- `arena_free`. The free list goes through the first word of an entry, `list.next`. -/
def filentFree (l : Links) (fe : Nat) : Links :=
  { l with next := update l.next (.entry fe) l.freeList, freeList := .entry fe }

/-- `none` is the store through a link that leads nowhere. -/
def listDel (l : Links) (fe : Nat) : Option Links :=
  let next := l.next (.entry fe)
  let prev := l.prev (.entry fe)
  if next = .bad ∨ prev = .bad then none
  else some { l with
    next := update (update l.next prev next) (.entry fe) .bad
    prev := update (update l.prev next prev) (.entry fe) .bad }

/-- A file with the links of its list and `log_head` of its inode in PM. -/
structure LinkedFile where
  sbi : Sbi
  inode : Inode
  pmLogHead : Int
  links : Links

/-- The slot behind `fe`, by its links. -/
def LinkedFile.nextSlot (s : LinkedFile) (fe : Nat) : Option Int :=
  match s.links.next (.entry fe) with
  | .head => some s.inode.ghostSlot
  | .entry next => some (s.inode.fents next).idx
  | .bad => none

/-- The records and `log_head` in PM once `fe` has been left out of the chain. -/
def LinkedFile.relink (s : LinkedFile) (fe : Nat) (next : Int) : Option ((Int → PmFilent) × Int) :=
  if s.inode.logHead = (s.inode.fents fe).idx then some (s.sbi.storage.fentTable, next)
  else match s.links.prev (.entry fe) with
    | .entry prev => some (setNext s.sbi.storage.fentTable (s.inode.fents prev).idx next, s.pmLogHead)
    | _ => none

/-- `file_remove_entry` over the links. `list` becomes what `list_del` is meant to
leave. -/
def LinkedFile.fileRemoveEntry (s : LinkedFile) (fe : Nat) : Option LinkedFile :=
  let f := s.inode.fents fe
  let storage := s.sbi.storage
  (s.nextSlot fe).bind fun next => (s.relink fe next).bind fun (table, pmLogHead) =>
    (btreeSetRange s.inode.bRoot f.lIdx (wrap64 (f.lIdx + f.blocks)) none).bind fun (_, bRoot) =>
      (listDel (filentFree s.links fe) fe).map fun links =>
        { sbi := { s.sbi with storage := { storage with
            files := doSlotFree storage.files f.idx, fentTable := setNext table f.idx 0 } }
          inode := { s.inode with
            bRoot, list := s.inode.list.erase fe, entryNum := sub64 s.inode.entryNum 1 }
          pmLogHead, links }

/-! ## The two directions -/

/-- The loop of `inode_shrink`. At a block that is not mapped it goes on without end,
which is `none`. -/
def shrinkLoop (endBlk : Nat) : Nat → Nat → LinkedFile → Option LinkedFile
  | 0, _, _ => none
  | fuel + 1, startBlk, s =>
    if startBlk < endBlk then
      match btreeGet s.inode.bRoot startBlk with
      | none => none
      | some fe =>
        let next := wrap64 (startBlk + (s.inode.fents fe).blocks)
        if endBlk < next then some s
        else (s.fileRemoveEntry fe).bind (shrinkLoop endBlk fuel next)
    else some s

/-- The number of blocks up to a size. -/
def sizeBlocks (size : Nat) : Nat := wrap64 (size + 4095) / 4096

/-- Every turn of the loop goes on by a block at least, or it is made again without
end. -/
def inodeShrink (s : LinkedFile) (newSize : Nat) : Option (Int × LinkedFile) :=
  let startBlk := sizeBlocks newSize
  let endBlk := sizeBlocks s.inode.iSize
  let (jnl, mgr) := journalAlloc s.sbi.jnlMgr
  let low := journalTruncate s.sbi.low jnl s.inode.iNo newSize
  (shrinkLoop endBlk (endBlk - startBlk + 1) startBlk
      { s with sbi := { s.sbi with low, jnlMgr := mgr } }).map fun s =>
    let (low, mgr) := journalCommit s.sbi.low s.sbi.jnlMgr jnl
    (0, { s with sbi := { s.sbi with low, jnlMgr := mgr } })

/-- The loop of `inode_extend`, in which `startBlk` does not move. As in
`inode_write_atomic`, a request that finds no blocks is not noticed, and `none` is the
store behind the end of `ebuf`. -/
def extendLoop (env : Env) (startBlk : Nat) :
    Nat → Nat → Sbi → List EntryUnit → Option (Sbi × List EntryUnit)
  | 0, _, _, _ => none
  | fuel + 1, numBlk, sbi, ebuf =>
    if numBlk = 0 then some (sbi, ebuf)
    else if ebuf.length < ebufSize then
      let (index, allocated, sbi) := slotDataAlloc env sbi numBlk
      extendLoop env startBlk fuel (sub64 numBlk allocated) sbi
        (ebuf ++ [⟨startBlk, toSize index, allocated⟩])
    else none

/-- The first block and the number of blocks that `inode_extend` asks for. Behind an end
inside of a block, `none` is the access through `NULL` where the next block is not
mapped. -/
def extendRange (inode : Inode) (newSize : Nat) : Option (Nat × Nat) :=
  let startBlk := sizeBlocks inode.iSize
  let numBlk := sizeBlocks (sub64 newSize inode.iSize)
  if inode.iSize % 4096 ≠ 0 then
    (filentLookup inode startBlk).map fun _ => (wrap64 (startBlk + 1), sub64 numBlk 1)
  else some (startBlk, numBlk)

/-- `ts` is `inode->ts`, which no function sets. -/
def inodeExtend (env : Env) (ts : Nat) (sbi : Sbi) (inode : Inode) (newSize : Nat) :
    Option (Int × Inode × Sbi) :=
  (extendRange inode newSize).bind fun (startBlk, numBlk) =>
    (extendLoop env startBlk (ebufSize + 1) numBlk sbi []).bind fun (sbi, ebuf) =>
      (appendUnits env ts ebuf inode sbi.storage).map fun
        | (.error e, inode, storage) => (e, inode, { sbi with storage })
        | (.ok (), inode, storage) => (0, inode, { sbi with storage })

/-- The links and `log_head` in PM matter to a smaller size only. -/
def inodeResize (env : Env) (ts : Nat) (pmLogHead : Int) (links : Links) (sbi : Sbi) (inode : Inode)
    (newSize : Nat) : Option (Int × Inode × Sbi) :=
  if newSize = inode.iSize then some (0, inode, sbi)
  else if newSize < inode.iSize then
    (inodeShrink ⟨sbi, inode, pmLogHead, links⟩ newSize).map fun (ret, s) => (ret, s.inode, s.sbi)
  else inodeExtend env ts sbi inode newSize

/-! ## The first removal -/

def linkTo : Option Nat → Link
  | none => .head
  | some fe => .entry fe

/-- The links of the entries of `list` go through the list and back to the head. -/
structure Links.Ring (l : Links) (list : List Nat) : Prop where
  next : ∀ fe ∈ list, l.next (.entry fe) = linkTo (nextOf list fe)
  prev : ∀ fe ∈ list, l.prev (.entry fe) = linkTo (prevOf list fe)

/-! ## The size -/

theorem LinkedFile.fileRemoveEntry_size (call : s.fileRemoveEntry fe = some s') :
    s'.inode.iSize = s.inode.iSize := by
  obtain ⟨_, _, call⟩ := bind_eq_some_iff.mp call
  obtain ⟨_, _, call⟩ := bind_eq_some_iff.mp call
  obtain ⟨_, _, call⟩ := bind_eq_some_iff.mp call
  obtain ⟨_, _, eq⟩ := map_eq_some_iff.mp call
  cases eq
  rfl

/-- `s'` is what some turns of the loop of `inode_shrink` make of `s`, from block
`startBlk` on. They remove the entries `gone`, in this order. -/
inductive ShrinkTurns (endBlk : Nat) : Nat → LinkedFile → List Nat → LinkedFile → Prop
  | crash {startBlk : Nat} {s : LinkedFile} : ShrinkTurns endBlk startBlk s [] s
  | turn {startBlk fe : Nat} {gone : List Nat} {s s1 s' : LinkedFile} (more : startBlk < endBlk)
      (found : btreeGet s.inode.bRoot startBlk = some fe)
      (fits : wrap64 (startBlk + (s.inode.fents fe).blocks) ≤ endBlk)
      (remove : s.fileRemoveEntry fe = some s1)
      (rest : ShrinkTurns endBlk (wrap64 (startBlk + (s.inode.fents fe).blocks)) s1 gone s') :
      ShrinkTurns endBlk startBlk s (fe :: gone) s'

/-- Where the loop ends, its turns have been made. -/
theorem shrinkLoop_turns {endBlk startBlk : Nat} (call : shrinkLoop endBlk fuel startBlk s = some s') :
    ∃ gone, ShrinkTurns endBlk startBlk s gone s' := by
  induction fuel generalizing startBlk s with
  | zero => cases call
  | succ fuel ih =>
    rw [shrinkLoop] at call
    split at call
    · next more =>
      split at call
      · cases call
      next fe found =>
      dsimp only at call
      split at call
      · cases call
        exact ⟨[], .crash⟩
      · next fits =>
        obtain ⟨s1, remove, call⟩ := bind_eq_some_iff.mp call
        obtain ⟨gone, rest⟩ := ih call
        exact ⟨fe :: gone, .turn more found (not_lt.mp fits) remove rest⟩
    · cases call
      exact ⟨[], .crash⟩

theorem ShrinkTurns.size {endBlk startBlk : Nat} {gone : List Nat}
    (turns : ShrinkTurns endBlk startBlk s gone s') : s'.inode.iSize = s.inode.iSize := by
  induction turns with
  | crash => rfl
  | turn more found fits remove rest ih => exact ih.trans (LinkedFile.fileRemoveEntry_size remove)

theorem inodeExtend_size (call : inodeExtend env ts sbi inode newSize = some (ret, inode', sbi')) :
    inode'.iSize = inode.iSize := by
  obtain ⟨_, _, call⟩ := bind_eq_some_iff.mp call
  obtain ⟨_, _, call⟩ := bind_eq_some_iff.mp call
  obtain ⟨⟨r, inode1, storage⟩, append, eq⟩ := map_eq_some_iff.mp call
  have size := (appendUnits_size append).1
  cases r <;> cases eq <;> exact size

theorem inodeResize_size (call : inodeResize env ts pmLogHead links sbi inode newSize = some (ret, inode', sbi')) :
    inode'.iSize = inode.iSize := by
  unfold inodeResize at call
  split at call
  · cases call
    rfl
  split at call
  · obtain ⟨⟨_, s'⟩, shrink, eq⟩ := map_eq_some_iff.mp call
    cases eq
    obtain ⟨s2, loop, eq⟩ := map_eq_some_iff.mp shrink
    cases eq
    obtain ⟨gone, turns⟩ := shrinkLoop_turns loop
    exact turns.size
  · exact inodeExtend_size call

/-! ## A smaller size -/

theorem LinkedFile.fileRemoveEntry_index (shape : ∃ base, Shape s.inode.bRoot base)
    (low : (s.inode.fents fe).lIdx + (s.inode.fents fe).blocks < 256 ^ 7)
    (call : s.fileRemoveEntry fe = some s') : (∃ base, Shape s'.inode.bRoot base) ∧ btreeGet s'.inode.bRoot =
      without (btreeGet s.inode.bRoot) (s.inode.fents fe).lIdx (s.inode.fents fe).blocks ∧
    s'.inode.fents = s.inode.fents ∧ s'.sbi.blocks = s.sbi.blocks := by
  obtain ⟨_, shape⟩ := shape
  obtain ⟨next, _, call⟩ := bind_eq_some_iff.mp call
  obtain ⟨⟨table, head⟩, _, call⟩ := bind_eq_some_iff.mp call
  obtain ⟨⟨r, tree⟩, set, call⟩ := bind_eq_some_iff.mp call
  obtain ⟨links, _, eq⟩ := map_eq_some_iff.mp call
  cases eq
  obtain ⟨_, _, set', shape', get⟩ := shape.erase_range low
  cases set.symm.trans set'
  exact ⟨shape', funext get, rfl, rfl⟩

/-- From block `p` on the file consists of whole extents, one behind the other, up to
block `stop`. -/
inductive Tiled (m : Nat → Option Nat) (fents : Nat → Filent) (stop : Nat) : Nat → Prop
  | done : Tiled m fents stop stop
  | next {p fe : Nat} (mapped : m p = some fe) (first : (fents fe).lIdx = p)
      (nonempty : 0 < (fents fe).blocks) (inside : p + (fents fe).blocks ≤ stop)
      (rest : Tiled m fents stop (p + (fents fe).blocks)) : Tiled m fents stop p

/-- Of whole extents none is left. -/
theorem shrinkLoop_tiled {m : Nat → Option Nat} {fents : Nat → Filent} {stop p : Nat}
    (tiled : Tiled m fents stop p) (low : stop < 256 ^ 7) (shape : ∃ base, Shape s.inode.bRoot base)
    (same : s.inode.fents = fents) (agrees : ∀ k, p ≤ k → btreeGet s.inode.bRoot k = m k)
    (call : shrinkLoop stop fuel p s = some s') :
    (∀ k, btreeGet s'.inode.bRoot k = if p ≤ k ∧ k < stop then none else btreeGet s.inode.bRoot k) ∧
    s'.inode.fents = fents ∧ s'.sbi.blocks = s.sbi.blocks := by
  induction tiled generalizing fuel s with
  | done =>
    cases fuel with
    | zero => cases call
    | succ fuel =>
      rw [shrinkLoop, if_neg (lt_irrefl _)] at call
      cases call
      exact ⟨fun k => by rw [if_neg (by omega)], same, rfl⟩
  | @next p fe mapped first nonempty inside rest ih =>
    subst same
    have stays : wrap64 (p + (s.inode.fents fe).blocks) = p + (s.inode.fents fe).blocks :=
      wrap64_of_lt (by omega)
    cases fuel with
    | zero => cases call
    | succ fuel =>
      simp only [shrinkLoop, agrees p le_rfl, mapped, if_pos (show p < stop by omega), stays,
        if_neg (not_lt.mpr inside)] at call
      obtain ⟨s1, remove, call⟩ := bind_eq_some_iff.mp call
      obtain ⟨shape1, get, fents1, blocks1⟩ := s.fileRemoveEntry_index shape (by omega) remove
      rw [first] at get
      obtain ⟨get', fents', blocks'⟩ := ih shape1 fents1
        (fun k hk => by
          rw [get, without, if_neg (by omega)]
          exact agrees k (by omega)) call
      refine ⟨fun k => ?_, fents', blocks'.trans blocks1⟩
      rw [get', get, without]
      split_ifs <;> first | rfl | omega

theorem sizeBlocks_eq {size : Nat} (fits : size + 4095 < 2 ^ 64) : sizeBlocks size = (size + 4095) / 4096 := by
  rw [sizeBlocks, wrap64_of_lt fits]

theorem inodeShrink_loop (call : inodeShrink s newSize = some (ret, s')) : ret = 0 ∧ ∃ s1 s2, ∃ fuel,
      shrinkLoop (sizeBlocks s.inode.iSize) fuel (sizeBlocks newSize) s1 = some s2 ∧
      s1.inode = s.inode ∧ s1.sbi.blocks = s.sbi.blocks ∧ s1.sbi.storage = s.sbi.storage ∧
      s'.inode = s2.inode ∧ s'.sbi.blocks = s2.sbi.blocks ∧ s'.sbi.storage = s2.sbi.storage := by
  obtain ⟨s2, loop, eq⟩ := map_eq_some_iff.mp call
  cases eq
  exact ⟨rfl, _, s2, _, loop, rfl, rfl, rfl, rfl, rfl, rfl⟩

theorem inodeResize_tiled (shape : ∃ base, Shape inode.bRoot base) (smaller : newSize < inode.iSize)
    (fits : inode.iSize + 4095 < 2 ^ 64)
    (tiled : Tiled (btreeGet inode.bRoot) inode.fents ((inode.iSize + 4095) / 4096)
      ((newSize + 4095) / 4096))
    (call : inodeResize env ts pmLogHead links sbi inode newSize = some (ret, inode', sbi')) :
    (∀ k, btreeGet inode'.bRoot k =
      if (newSize + 4095) / 4096 ≤ k ∧ k < (inode.iSize + 4095) / 4096 then none
      else btreeGet inode.bRoot k) ∧
    inode'.fents = inode.fents ∧ sbi'.blocks = sbi.blocks := by
  rw [inodeResize, if_neg (by omega), if_pos smaller] at call
  obtain ⟨⟨_, s'⟩, shrink, eq⟩ := map_eq_some_iff.mp call
  cases eq
  obtain ⟨rfl, s1, s2, fuel, loop, inode1, blocks1, _, inode2, blocks2, _⟩ := inodeShrink_loop shrink
  rw [sizeBlocks_eq fits, sizeBlocks_eq (by omega)] at loop
  obtain ⟨get, fents, blocks⟩ := shrinkLoop_tiled tiled (by omega) (inode1 ▸ shape) (by rw [inode1])
    (fun k _ => by rw [inode1]) loop
  rw [inode1] at get
  rw [inode2]
  exact ⟨get, fents, blocks2.trans (blocks.trans blocks1)⟩

/-- The blocks behind the cut are whole extents, one behind the other up to the end of the
file, and no block behind the end is mapped. -/
structure Inode.CutsWhole (inode : Inode) (newSize : Nat) : Prop where
  shape : ∃ base, Shape inode.bRoot base
  fits : inode.iSize + 4095 < 2 ^ 64
  tiled : Tiled (btreeGet inode.bRoot) inode.fents ((inode.iSize + 4095) / 4096) ((newSize + 4095) / 4096)
  last : ∀ k, (inode.iSize + 4095) / 4096 ≤ k → filentLookup inode k = none

theorem Inode.CutsWhole.drops (whole : inode.CutsWhole newSize) (smaller : newSize < inode.iSize)
    (call : inodeResize env ts pmLogHead links sbi inode newSize = some (ret, inode', sbi')) :
    (∀ x < newSize, byteAt sbi'.blocks inode' x = byteAt sbi.blocks inode x) ∧
    ∀ k, (newSize + 4095) / 4096 ≤ k → filentLookup inode' k = none := by
  obtain ⟨get, fents, blocks⟩ := inodeResize_tiled whole.shape smaller whole.fits whole.tiled call
  have lookup (k : Nat) : filentLookup inode' k =
      if (newSize + 4095) / 4096 ≤ k ∧ k < (inode.iSize + 4095) / 4096 then none
      else filentLookup inode k := by
    rw [filentLookup, get, fents, filentLookup]
    split <;> rfl
  refine ⟨fun x hx => ?_, fun k hk => ?_⟩
  · rw [byteAt, place, lookup, if_neg (by omega), blocks]
    rfl
  rw [lookup]
  split
  · rfl
  · exact whole.last k (by omega)

/-- A smaller size never becomes `i_size`. Where it cuts whole extents off, they are
dropped and the bytes in front of the cut stay. -/
theorem shrink_keeps_size {env : Env} {ts : Nat} {pmLogHead : Int} {links : Links}
    {sbi sbi' : Sbi} {inode inode' : Inode} {newSize : Nat} {ret : Int} (smaller : newSize < inode.iSize)
    (call : inodeResize env ts pmLogHead links sbi inode newSize = some (ret, inode', sbi')) :
    inode'.iSize ≠ newSize ∧ (inode.CutsWhole newSize →
      (∀ x < newSize, byteAt sbi'.blocks inode' x = byteAt sbi.blocks inode x) ∧
      ∀ k, (newSize + 4095) / 4096 ≤ k → filentLookup inode' k = none) := by
  refine ⟨?_, fun whole => whole.drops smaller call⟩
  rw [inodeResize_size call]
  exact smaller.ne'

/-- A file of `n` extents of `each` blocks. -/
def tiledFile (n each : Nat) : Inode :=
  { iNo := 1, iSize := n * each * 4096, symlink := false
    bRoot := ⟨0, 0, fun _ => ⟨none, 0, 0, 0, fun k => if k < n * each then some (k / each) else none⟩,
      ⟨1, fun _ => true⟩⟩
    entryNum := n, invalidNum := 0, logHead := 1, ghostSlot := n + 1, list := List.range n
    invalid := [], fents := fun fe => ⟨fe + 1, 1, fe * each, fe * each + 1, each, each⟩
    arena := ⟨n, fun _ => true⟩ }

theorem tiledFile_get (n each k : Nat) :
    btreeGet (tiledFile n each).bRoot k = if k < n * each then some (k / each) else none := rfl

theorem tiledFile_end {each k : Nat} (far : n * each ≤ k) : filentLookup (tiledFile n each) k = none := by
  rw [filentLookup, tiledFile_get, if_neg (not_lt.mpr far)]
  rfl

theorem tiledFile_shape {each : Nat} (small : n * each ≤ 256) : Shape (tiledFile n each).bRoot (fun _ => 0) := by
  constructor
  case cells =>
    intro _ _ _ i far
    exact if_neg (not_lt.mpr (small.trans far))
  all_goals simp [tiledFile]

/-- The links of a list, with entry `free` the first on the free list of the arena. -/
def Links.ofList (list : List Nat) (free : Nat) : Links where
  next
    | .entry fe => linkTo (nextOf list fe)
    | _ => linkTo list.head?
  prev
    | .entry fe => linkTo (prevOf list fe)
    | _ => linkTo list.getLast?
  freeList := .entry free

/-- The second of two blocks is cut off. -/
theorem shrink_keeps_size_second : ∃ sbi' inode',
    inodeResize firstFit 0 1 (.ofList [0, 1] 2) (blankSbi 64 0#8) (tiledFile 2 1) 4096 =
      some (0, inode', sbi') ∧
    inode'.iSize ≠ 4096 ∧
    (∀ x < 4096, byteAt sbi'.blocks inode' x = byteAt (blankSbi 64 0#8).blocks (tiledFile 2 1) x) ∧
    ∀ k, 1 ≤ k → filentLookup inode' k = none := by
  have run : (inodeResize firstFit 0 1 (.ofList [0, 1] 2) (blankSbi 64 0#8) (tiledFile 2 1) 4096).map
      Prod.fst = some 0 := by
    decide +kernel
  obtain ⟨⟨ret, inode', sbi'⟩, call, rfl⟩ := map_eq_some_iff.mp run
  have whole : (tiledFile 2 1).CutsWhole 4096 := ⟨⟨_, tiledFile_shape (by decide)⟩, by decide,
    .next (show btreeGet (tiledFile 2 1).bRoot 1 = some 1 by decide) (by decide) (by decide) (by decide) .done,
    fun k far => tiledFile_end far⟩
  obtain ⟨size, drops⟩ := shrink_keeps_size (by decide) call
  exact ⟨sbi', inode', call, size, drops whole⟩

/-- Two extents of two blocks, cut behind the first block. The first extent is removed
whole, block 0 with it, and the second is left as it was. -/
theorem shrink_loses_first_block : ∃ sbi' inode',
    inodeResize firstFit 0 1 (.ofList [0, 1] 2) (blankSbi 64 7#8) (tiledFile 2 2) 4096 =
      some (0, inode', sbi') ∧
    inode'.iSize = 16384 ∧
    byteAt (blankSbi 64 7#8).blocks (tiledFile 2 2) 0 = 7#8 ∧ byteAt sbi'.blocks inode' 0 = 0#8 ∧
    (filentLookup inode' 2).isSome := by
  have run : (inodeResize firstFit 0 1 (.ofList [0, 1] 2) (blankSbi 64 7#8) (tiledFile 2 2) 4096).map
      (fun (ret, inode', sbi') =>
        (ret, inode'.iSize, byteAt sbi'.blocks inode' 0, (filentLookup inode' 2).isSome)) =
      some (0, 16384, 0#8, true) := by
    decide +kernel
  obtain ⟨⟨ret, inode', sbi'⟩, call, eq⟩ := map_eq_some_iff.mp run
  simp only [Prod.mk.injEq] at eq
  obtain ⟨rfl, size, lost, left⟩ := eq
  exact ⟨sbi', inode', call, size, by decide, lost, left⟩

/-! ## A larger size -/

/-- Extents that all begin at one logical block. -/
def stacked (start : Nat) (runs : List (Nat × Nat)) : List EntryUnit :=
  runs.map fun (p, c) => ⟨start, p, c⟩

theorem extendLoop_served {b b' : Maps} (served : Served env ok b n runs b') (far : n < 2 ^ 64)
    (maps : sbi.storage.data.maps = b) (call : extendLoop env start fuel n sbi ebuf = some (sbi', ebuf')) :
    sbi' = { sbi with storage := sbi.storage.withMaps b' } ∧ ebuf' = ebuf ++ stacked start runs := by
  induction served generalizing fuel sbi ebuf with
  | done =>
    subst maps
    cases fuel with
    | zero => cases call
    | succ fuel =>
      cases call
      exact ⟨rfl, (append_nil _).symm⟩
  | @more b b' n i s c runs pick least most good rest ih =>
    subst maps
    cases fuel with
    | zero => cases call
    | succ fuel =>
      simp only [extendLoop, if_neg (show n ≠ 0 by omega), slotDataAlloc, pick, takeRange,
        toSize_natCast, sub64_of_le most far] at call
      split at call
      · obtain ⟨rfl, rfl⟩ := ih (by omega) (by rfl) call
        exact ⟨rfl, by simp [stacked]⟩
      · cases call

theorem inodeExtend_served {b' : Maps} (range : extendRange inode newSize = some (start, n))
    (served : Served env ok sbi.storage.data.maps n runs b') (far : n < 2 ^ 64)
    (call : inodeExtend env ts sbi inode newSize = some (ret, inode', sbi')) :
    ∃ r, appendUnits env ts (stacked start runs) inode (sbi.storage.withMaps b') =
        some (r, inode', sbi'.storage) ∧ (ret = 0 → r = .ok ()) := by
  simp only [inodeExtend, range, bind_some] at call
  obtain ⟨⟨sbi1, ebuf⟩, loop, call⟩ := bind_eq_some_iff.mp call
  obtain ⟨rfl, rfl⟩ := extendLoop_served served far rfl loop
  obtain ⟨⟨r, inode1, storage⟩, append, eq⟩ := map_eq_some_iff.mp call
  rw [nil_append] at append
  cases r with
  | error e =>
    cases eq
    have negative := appendUnits_negative append
    refine ⟨.error _, append, fun zero => ?_⟩
    omega
  | ok =>
    cases eq
    exact ⟨.ok (), append, fun _ => rfl⟩

/-- The file ends between two blocks, and the first run that `slot_data_alloc` finds has
all blocks up to the new size, none of which was mapped before. -/
structure Inode.ExtendsAtOnce (env : Env) (b : Maps) (inode : Inode) (newSize n : Nat) : Prop where
  indexed : Indexed inode
  laid : b.Laid
  aligned : inode.iSize % 4096 = 0
  far : newSize ≤ (2 ^ 31 - 1) * 4096
  count : n = (newSize - inode.iSize + 4095) / 4096
  served : ∃ p maps, Served env FreeRun b n [(p, n)] maps
  missing : ∀ k, (inode.iSize + 4095) / 4096 ≤ k → k < (newSize + 4095) / 4096 → inode.phys k = none

/-- The blocks newly mapped are those up to the new size, each to a free block of its
own, and the others stay where they were. -/
structure MapsMissing (b : Maps) (newSize : Nat) (inode inode' : Inode) : Prop where
  missing : ∀ k, inode.phys k = none ∧ inode'.phys k ≠ none ↔
    (inode.iSize + 4095) / 4096 ≤ k ∧ k < (newSize + 4095) / 4096
  fresh : ∀ k x, inode.phys k = none → inode'.phys k = some x → b.Has x ∧ b.used x = false
  distinct : ∀ k l x, inode.phys k = none → inode.phys l = none → inode'.phys k = some x →
    inode'.phys l = some x → k = l
  kept : ∀ k, inode.phys k ≠ none → inode'.phys k = inode.phys k

section
variable (h : inode.ExtendsAtOnce env sbi.storage.data.maps newSize n) (larger : inode.iSize < newSize)
  (call : inodeResize env ts pmLogHead links sbi inode newSize = some (0, inode', sbi'))
include h larger call

/-- The run begins behind the end of the file. -/
theorem Inode.ExtendsAtOnce.phys : ∃ p, (∀ x, p ≤ x → x < p + n →
        sbi.storage.data.maps.Has x ∧ sbi.storage.data.maps.used x = false) ∧
      ∀ k, inode'.phys k = if (inode.iSize + 4095) / 4096 ≤ k ∧ k < (newSize + 4095) / 4096 then
        some (p + (k - (inode.iSize + 4095) / 4096)) else inode.phys k := by
  obtain ⟨indexed, laid, aligned, far, count, ⟨p, maps, served⟩, _⟩ := h
  have range : extendRange inode newSize = some ((inode.iSize + 4095) / 4096, n) := by
    have more : sub64 newSize inode.iSize = newSize - inode.iSize := sub64_of_le (by omega) (by omega)
    rw [extendRange, more, sizeBlocks_eq (by omega), sizeBlocks_eq (by omega), if_neg (by omega), count]
  rw [inodeResize, if_neg (by omega), if_neg (by omega)] at call
  obtain ⟨r, append, ok⟩ := inodeExtend_served range served (by omega) call
  obtain rfl := ok rfl
  have taken : p + n ≤ 2 ^ 32 ∧ ∀ x, p ≤ x → x < p + n →
      sbi.storage.data.maps.Has x ∧ sbi.storage.data.maps.used x = false := by
    cases served with
    | more pick least most good rest => exact ⟨good.narrow, (good.taken laid).free⟩
  have fits : ∀ u ∈ stacked ((inode.iSize + 4095) / 4096) [(p, n)], u.Fits := by
    intro u hu
    rw [mem_singleton.mp hu]
    exact ⟨⟨by dsimp only; omega, by dsimp only; omega⟩, by dsimp only; omega⟩
  obtain ⟨_, ⟨_, past, split, phys⟩, done⟩ := appendUnits_phys fits indexed append
  rw [done rfl, append_nil] at split
  refine ⟨p, taken.2, fun k => ?_⟩
  rw [phys, ← split, show (newSize + 4095) / 4096 = (inode.iSize + 4095) / 4096 + n by omega]
  rfl

theorem Inode.ExtendsAtOnce.mapsMissing : MapsMissing sbi.storage.data.maps newSize inode inode' := by
  obtain ⟨p, free, phys⟩ := h.phys larger call
  have count := h.count
  have aligned := h.aligned
  have new {k x : Nat} (before : inode.phys k = none) (after : inode'.phys k = some x) :
      ((inode.iSize + 4095) / 4096 ≤ k ∧ k < (newSize + 4095) / 4096) ∧
      p + (k - (inode.iSize + 4095) / 4096) = x := by
    rw [phys] at after
    split at after
    · exact ⟨by assumption, some.inj after⟩
    · exact absurd (before.symm.trans after) nofun
  refine ⟨fun k => ⟨?_, ?_⟩, ?_, ?_, ?_⟩
  · rintro ⟨before, after⟩
    obtain ⟨x, after⟩ := ne_none_iff_exists'.mp after
    exact (new before after).1
  · rintro ⟨lo, hi⟩
    rw [phys, if_pos ⟨lo, hi⟩]
    exact ⟨h.missing k lo hi, nofun⟩
  · intro k x before after
    have := new before after
    exact free x (by omega) (by omega)
  · intro k l x before before' after after'
    have := new before after
    have := new before' after'
    omega
  · intro k before
    rw [phys, if_neg]
    exact fun inside => before (h.missing k inside.1 inside.2)

end

/-- A larger size never becomes `i_size`. Where one run has all missing blocks, exactly
these are mapped. -/
theorem extend_keeps_size {env : Env} {ts n : Nat} {pmLogHead : Int} {links : Links}
    {sbi sbi' : Sbi} {inode inode' : Inode} {newSize : Nat} (larger : inode.iSize < newSize)
    (call : inodeResize env ts pmLogHead links sbi inode newSize = some (0, inode', sbi')) :
    inode'.iSize ≠ newSize ∧ (inode.ExtendsAtOnce env sbi.storage.data.maps newSize n →
      MapsMissing sbi.storage.data.maps newSize inode inode') := by
  refine ⟨?_, fun once => once.mapsMissing larger call⟩
  rw [inodeResize_size call]
  exact larger.ne

/-- Two blocks for a new file. -/
theorem extend_keeps_size_new : ∃ inode sbi inode' sbi',
    inodeResize firstFit 0 0 (.ofList [] 0) sbi inode 8192 = some (0, inode', sbi') ∧
    inode.iSize = 0 ∧ inode'.iSize ≠ 8192 ∧
    ∀ k, inode.phys k = none ∧ inode'.phys k ≠ none ↔ 0 ≤ k ∧ k < 2 := by
  have run : (created (blankSbi 64 0#8)).bind (fun f =>
      (inodeResize firstFit 0 0 (.ofList [] 0) f.2 f.1 8192).map fun out => out.1) = some 0 := by
    decide +kernel
  obtain ⟨⟨inode, sbi⟩, create, run⟩ := bind_eq_some_iff.mp run
  obtain ⟨⟨ret, inode', sbi'⟩, call, rfl⟩ := map_eq_some_iff.mp run
  obtain ⟨new, _, _, _, storage⟩ := inodeCreate_new (fun _ => rfl) (inodeCreate_of_created create)
  have maps : sbi.storage.data.maps = emptyMaps 64 := by rw [storage]; rfl
  have served : Served firstFit FreeRun (emptyMaps 64) 2 [(0, 2)] _ :=
    .more (i := 0) (s := 0) (by decide) (by decide) le_rfl (by decide) (.done _)
  have empty (k : Nat) : inode.phys k = none := by simp [Inode.phys, physOf, new.unmapped]
  have once : inode.ExtendsAtOnce firstFit sbi.storage.data.maps 8192 2 :=
    ⟨new.indexed, maps ▸ (emptyMaps_ok 64).toLaid, by rw [new.iSize], by decide, by rw [new.iSize],
      ⟨0, _, maps ▸ served⟩, fun k _ _ => empty k⟩
  obtain ⟨size, mapped⟩ := extend_keeps_size (by rw [new.iSize]; decide) call
  have mapped := (mapped once).missing
  rw [new.iSize] at mapped
  exact ⟨inode, sbi, inode', sbi', call, new.iSize, size, mapped⟩

/-- Four data blocks, of which 1 and 3 are free. -/
def fragmented : Sbi :=
  let taken (b : Maps) (n : Nat) : Maps := (takeRange b (some (0, n, 1))).2.2
  { blankSbi 64 0#8 with storage := (blankStorage 64).withMaps (taken (taken (emptyMaps 4) 0) 2) }

/-- The two blocks are found one by one. Both are entered as block 0 of the file, so that
block 1 is left without one. -/
theorem extend_leaves_hole : ∃ inode sbi inode' sbi',
    created fragmented = some (inode, sbi) ∧
    inodeResize firstFit 0 0 (.ofList [] 0) sbi inode 8192 = some (0, inode', sbi') ∧
    inode'.iSize = 0 ∧ inode'.phys 0 = some 1 ∧ inode'.phys 1 = none := by
  have run : (created fragmented).bind (fun f =>
      (inodeResize firstFit 0 0 (.ofList [] 0) f.2 f.1 8192).map fun out =>
        (out.1, out.2.1.iSize, out.2.1.phys 0, out.2.1.phys 1)) = some (0, 0, some 1, none) := by
    decide +kernel
  obtain ⟨⟨inode, sbi⟩, create, run⟩ := bind_eq_some_iff.mp run
  obtain ⟨⟨ret, inode', sbi'⟩, call, eq⟩ := map_eq_some_iff.mp run
  simp only [Prod.mk.injEq] at eq
  obtain ⟨rfl, size, first, second⟩ := eq
  exact ⟨inode, sbi, inode', sbi', create, call, size, first, second⟩

/-! ## Calls that remove no entry -/

/-- No block is left out, or the extent at the cut ends behind the end of the file. -/
def Inode.CutsNothing (inode : Inode) (newSize : Nat) : Prop :=
  sizeBlocks inode.iSize ≤ sizeBlocks newSize ∨ ∃ fe, btreeGet inode.bRoot (sizeBlocks newSize) = some fe ∧
    sizeBlocks inode.iSize < wrap64 (sizeBlocks newSize + (inode.fents fe).blocks)

theorem shrinkLoop_nothing (nothing : s.inode.CutsNothing newSize)
    (call : shrinkLoop (sizeBlocks s.inode.iSize) fuel (sizeBlocks newSize) s = some s') : s' = s := by
  cases fuel with
  | zero => cases call
  | succ fuel =>
    rw [shrinkLoop] at call
    split at call
    · obtain none | ⟨fe, mapped, far⟩ := nothing
      · omega
      · simp only [mapped, if_pos far] at call
        exact (some.inj call).symm
    · exact (some.inj call).symm

theorem extendLoop_maps (call : extendLoop env start fuel n sbi ebuf = some (sbi', ebuf')) :
    ∃ maps, sbi'.storage = sbi.storage.withMaps maps := by
  induction fuel generalizing n sbi ebuf with
  | zero => cases call
  | succ fuel ih =>
    simp only [extendLoop] at call
    split at call
    · cases call
      exact ⟨sbi'.storage.data.maps, rfl⟩
    split at call
    · obtain ⟨maps, eq⟩ := ih call
      exact ⟨maps, eq⟩
    · cases call

theorem inodeResize_nothing (smaller : newSize ≤ inode.iSize)
    (nothing : newSize < inode.iSize → inode.CutsNothing newSize)
    (call : inodeResize env ts pmLogHead links sbi inode newSize = some (ret, inode', sbi')) :
    inode' = inode ∧ sbi'.storage = sbi.storage := by
  unfold inodeResize at call
  split at call
  · cases call
    exact ⟨rfl, rfl⟩
  have smaller : newSize < inode.iSize := by omega
  rw [if_pos smaller] at call
  obtain ⟨⟨_, s'⟩, shrink, eq⟩ := map_eq_some_iff.mp call
  cases eq
  obtain ⟨_, s1, s2, fuel, loop, inode1, _, storage1, inode2, _, storage2⟩ := inodeShrink_loop shrink
  dsimp only at inode1 storage1
  obtain rfl := shrinkLoop_nothing (inode1 ▸ nothing smaller) (inode1 ▸ loop)
  exact ⟨inode2.trans inode1, storage2.trans storage1⟩

/-- What taking blocks and entering extents keep, a change of the size keeps that removes
no entry. -/
theorem inodeResize_keeps {P : Inode → Storage → Prop}
    (append : ∀ {inode inode' : Inode} {s s' : Storage} {entry : PmFilent} {r : Except Int Nat},
      P inode s → fileAppendEntry env s inode entry = some (r, inode', s') → P inode' s')
    (alloc : ∀ {inode : Inode} {s : Storage} (maps : Maps), P inode s → P inode (s.withMaps maps))
    (nothing : newSize < inode.iSize → inode.CutsNothing newSize) (start : P inode sbi.storage)
    (call : inodeResize env ts pmLogHead links sbi inode newSize = some (ret, inode', sbi')) :
    P inode' sbi'.storage := by
  by_cases smaller : newSize ≤ inode.iSize
  · obtain ⟨rfl, same⟩ := inodeResize_nothing smaller nothing call
    rw [same]
    exact start
  rw [inodeResize, if_neg (by omega), if_neg (by omega)] at call
  obtain ⟨⟨startBlk, numBlk⟩, _, call⟩ := bind_eq_some_iff.mp call
  obtain ⟨⟨sbi1, ebuf⟩, loop, call⟩ := bind_eq_some_iff.mp call
  obtain ⟨⟨r, inode1, storage⟩, units, eq⟩ := map_eq_some_iff.mp call
  obtain ⟨maps, eq1⟩ := extendLoop_maps loop
  rw [eq1] at units
  have kept := appendUnits_keeps append (alloc maps start) units
  cases r <;> cases eq <;> exact kept

end SlotFs
