import SlotFs.BtreeHint
import SlotFs.WriteIndex

/-!
# The reads of the index

`btree_get` divides its key by the span of the root's children and does not look at whether the
tree is high enough for it. The tree is grown only when an extent is entered, so it is up to the
offsets of a read or a write whether the lookups stay inside of `children`.
-/

namespace SlotFs
open CWord Runs List Option

variable {base : Nat → Nat} {c fuel key len offset : Nat} {inode inode' : Inode}

/-- The indices of `children` that `btree_get` reads. -/
def getIndices (t : Btree) : Nat → Nat → Nat → List Nat
  | fuel, node, key =>
    if (t.nodes node).height = 0 then [key]
    else
      match fuel with
      | 0 => []
      | fuel + 1 =>
        let span := maxKeys ((t.nodes node).height - 1)
        key / span ::
          match (t.nodes node).children (key / span) with
          | some child => getIndices t fuel child (key % span)
          | none => []

def btreeGetIndices (t : Btree) (key : Nat) : List Nat := getIndices t t.height t.root key

section
variable {t : Btree} {base : Nat → Nat}

theorem Shape.getIndices_inside (h : Shape t base) {n : Nat} (live : n < t.arena.asked)
    (enough : (t.nodes n).height ≤ fuel) (low : key < 256 ^ ((t.nodes n).height + 1)) :
    ∀ i ∈ getIndices t fuel n key, i < 256 := by
  induction fuel generalizing n key with
  | zero =>
    have zero : (t.nodes n).height = 0 := by omega
    rw [zero] at low
    unfold getIndices
    rw [if_pos zero]
    simpa using low
  | succ fuel ih =>
    by_cases zero : (t.nodes n).height = 0
    · rw [zero] at low
      unfold getIndices
      rw [if_pos zero]
      simpa using low
    have pos : 0 < 256 ^ (t.nodes n).height := Nat.pow_pos (by decide)
    rw [getIndices, if_neg zero]
    simp only [h.span live zero]
    intro i member
    rcases mem_cons.mp member with rfl | below
    · rw [Nat.div_lt_iff_lt_mul pos]
      rw [Nat.pow_succ, Nat.mul_comm] at low
      exact low
    split at below
    · rename_i child cell
      have link := h.down n live (by omega) _ child cell
      have hl := link.height
      refine ih link.live (by omega) ?_ i below
      rw [← hl]
      exact Nat.mod_lt _ pos
    · cases below

/-- A lookup stays inside of `children` just when the tree has room for its key. -/
theorem Shape.indices_inside_iff (h : Shape t base) (key : Nat) :
    (∀ i ∈ btreeGetIndices t key, i < 256) ↔ key < maxKeys t.height := by
  have top := h.topHeight
  rw [maxKeys_eq h.low]
  constructor
  · intro inside
    unfold btreeGetIndices getIndices at inside
    split at inside
    · rename_i zero
      rw [← top, zero]
      simpa using inside
    rename_i zero
    rw [h.span h.root zero, top] at inside
    have pos : 0 < 256 ^ t.height := Nat.pow_pos (by decide)
    cases height : t.height with
    | zero => omega
    | succ n =>
      simp only [height] at inside
      have first := inside _ mem_cons_self
      rw [Nat.div_lt_iff_lt_mul (Nat.pow_pos (by decide))] at first
      rw [Nat.pow_succ, Nat.mul_comm]
      exact first
  · intro low
    exact h.getIndices_inside h.root top.le (by rwa [top])

end

/-! ## What a read and a write look up -/

/-- The blocks that the loop of `inode_read` looks up. -/
def readKeys (inode : Inode) : Nat → Nat → Nat → List Nat
  | 0, _, _ => []
  | fuel + 1, offset, left =>
    let nr := readSize inode offset left
    offset / 4096 :: if left - nr > 0 then readKeys inode fuel (offset + nr) (left - nr) else []

/-- How much of a request `inode_read` serves. -/
def readLen (inode : Inode) (len offset : Nat) : Nat :=
  let room := sub64 inode.iSize offset
  if len > room then room else len

def inodeReadKeys (inode : Inode) (len offset : Nat) : List Nat :=
  if readLen inode len offset = 0 then []
  else readKeys inode (readLen inode len offset) offset (readLen inode len offset)

/-- The blocks of the first and of the last copy, if they are made. -/
def extentKeys (c allocated bytes : Nat) : List Nat :=
  (if c % 4096 ≠ 0 then [c / 4096] else []) ++
    if wrap64 (c % 4096 + bytes) % 4096 ≠ 0 then [sub64 (wrap64 (c / 4096 + allocated)) 1] else []

/-- What one turn of the loop of `inode_write_atomic` looks up. -/
def turnKeys (env : Env) (w : Write) : List Nat :=
  if w.appends then [w.c / 4096]
  else
    let allocated := (slotDataAlloc env w.sbi w.numBlk).2.1
    let room := sub64 (wrap64 (4096 * allocated)) (w.c % 4096)
    extentKeys w.c allocated (if room > w.count then w.count else room)

def writeLoopKeys (env : Env) (buf : Mem) (len offset : Nat) : Nat → Write → List Nat
  | 0, _ => []
  | fuel + 1, w =>
    if w.numBlk = 0 then []
    else turnKeys env w ++ ((writeNext env buf len offset w).map fun w =>
      writeLoopKeys env buf len offset fuel w).getD []

def writeBlocksKeys (env : Env) (sbi : Sbi) (inode : Inode) (buf : Mem) (len offset : Nat) : List Nat :=
  writeLoopKeys env buf len offset (ebufSize + 2) ⟨sbi, inode, offset, len, 0, blockCount len offset, []⟩

def inodeWriteKeys (env : Env) (sbi : Sbi) (inode : Inode) (buf : Mem) (len offset : Nat) : List Nat :=
  if inode.journals len offset then
    let (ret, sbi) := inodeWriteJournal sbi inode buf len offset
    offset / 4096 :: if ret > 0 then [] else writeBlocksKeys env sbi inode buf len offset
  else writeBlocksKeys env sbi inode buf len offset

/-- Every access of the lookups of `keys` is inside of `children`. -/
def LookupsInside (inode : Inode) (keys : List Nat) : Prop :=
  ∀ key ∈ keys, ∀ i ∈ btreeGetIndices inode.bRoot key, i < 256

/-! ## Reads -/

theorem readSize_le (inode : Inode) (offset left : Nat) : readSize inode offset left ≤ left := by
  simp only [readSize]
  split_ifs <;> omega

theorem mem_readKeys {left : Nat} (pos : 0 < left) (member : key ∈ readKeys inode fuel offset left) :
    key * 4096 < offset + left := by
  induction fuel generalizing offset left with
  | zero => cases member
  | succ fuel ih =>
    have le := readSize_le inode offset left
    rw [readKeys] at member
    rcases mem_cons.mp member with rfl | later
    · omega
    split at later
    · rename_i more
      have rest := ih more later
      omega
    · cases later

theorem LookupsInside.of_read (shape : Shape inode.bRoot base)
    (low : offset + readLen inode len offset ≤ 4096 * maxKeys inode.bRoot.height) :
    LookupsInside inode (inodeReadKeys inode len offset) := by
  intro key member
  unfold inodeReadKeys at member
  split at member
  · cases member
  · rename_i some
    have bound := mem_readKeys (Nat.pos_of_ne_zero some) member
    exact (shape.indices_inside_iff key).mpr (by omega)

/-! ## Writes -/

theorem mem_partialBlocks : key ∈ partialBlocks len offset ↔ offset % 4096 ≠ 0 ∧ key = offset / 4096 ∨
    (offset + len) % 4096 ≠ 0 ∧ key = (offset + len - 1) / 4096 := by
  unfold partialBlocks
  split_ifs <;> simp_all

theorem mem_extentKeys {allocated bytes : Nat} : key ∈ extentKeys c allocated bytes ↔
    c % 4096 ≠ 0 ∧ key = c / 4096 ∨
    wrap64 (c % 4096 + bytes) % 4096 ≠ 0 ∧ key = sub64 (wrap64 (c / 4096 + allocated)) 1 := by
  unfold extentKeys
  split_ifs <;> simp_all

section
variable {env : Env} {ok : Maps → Nat → Nat → Nat → Prop} {sbi : Sbi} {inode : Inode} {buf : Mem}
  {len offset : Nat} {b' : Maps} {past rest : List (Nat × Nat)} {w : Write}

theorem Progress.keys_inPlace (h : Progress env ok sbi inode len offset b' past rest w)
    (far : offset + len < 2 ^ 63) (appends : w.appends = true) :
    turnKeys env w = [offset / 4096] ∧ offset % 4096 ≠ 0 ∧
      ((offset + len) % 4096 ≠ 0 → (offset + len - 1) / 4096 = offset / 4096) := by
  obtain ⟨_, c, _, unaligned, _, fits⟩ := h.appends_first far appends
  refine ⟨?_, unaligned, fun partly => ?_⟩
  · rw [turnKeys, if_pos appends, c]
  · omega

theorem Progress.turnKeys_eq {p : Nat} (h : Progress env ok sbi inode len offset b' past ((p, c) :: rest) w)
    (far : offset + len < 2 ^ 63) (other : w.appends = false) :
    turnKeys env w = extentKeys w.c c (turnBytes w c) := by
  have alloc : (slotDataAlloc env w.sbi w.numBlk).2.1 = c := by
    have served := h.served
    generalize hm : w.sbi.storage.data.maps = b at served
    generalize w.numBlk = n at served
    cases served with
    | more pick => simp only [slotDataAlloc, hm, pick, takeRange]
  rw [turnKeys, other, if_neg (by decide), alloc]
  simp only [h.turnBytes_eq far]

/-- A turn with new blocks looks up the block in front of it in the first turn and the block
behind it in the last. -/
theorem Progress.keys_extent {p : Nat} (h : Progress env ok sbi inode len offset b' past ((p, c) :: rest) w)
    (far : offset + len < 2 ^ 63) (other : w.appends = false) (key : Nat) :
    key ∈ turnKeys env w ↔ (past = [] ∧ offset % 4096 ≠ 0) ∧ key = offset / 4096 ∨
      (rest = [] ∧ (offset + len) % 4096 ≠ 0) ∧ key = (offset + len - 1) / 4096 := by
  have split := h.served.total
  have least := h.served.positive (p, c) (mem_cons_self ..)
  have positive := h.served.positive
  rw [total_cons] at split
  simp only at split least
  have blocks := h.numBlk
  rw [blockCount_eq far] at blocks
  obtain ⟨position, inside, block, lower, upper⟩ := h.position far (by omega)
  have count := h.count
  have head : (w.c % 4096 ≠ 0 ∧ key = w.c / 4096) ↔
      (past = [] ∧ offset % 4096 ≠ 0) ∧ key = offset / 4096 := by
    cases past with
    | nil =>
      rw [total_nil] at position
      simp [show w.c = offset by omega]
    | cons run more =>
      have := h.positive run (mem_cons_self ..)
      rw [total_cons] at position
      simp [show w.c % 4096 = 0 by omega]
  have tail : (wrap64 (w.c % 4096 + turnBytes w c) % 4096 ≠ 0 ∧
        key = sub64 (wrap64 (w.c / 4096 + c)) 1) ↔
      (rest = [] ∧ (offset + len) % 4096 ≠ 0) ∧ key = (offset + len - 1) / 4096 := by
    have bytes : turnBytes w c = min (4096 * c - w.c % 4096) w.count := rfl
    rw [wrap64_of_lt (by omega), wrap64_of_lt (by omega), sub64_of_le (by omega) (by omega)]
    cases rest with
    | nil =>
      rw [total_nil] at split
      have all : w.c % 4096 + turnBytes w c = w.c % 4096 + w.count := by omega
      have same : (w.c % 4096 + turnBytes w c) % 4096 = (offset + len) % 4096 := by omega
      rw [same]
      constructor
      · rintro ⟨partly, rfl⟩
        exact ⟨⟨rfl, partly⟩, by omega⟩
      · rintro ⟨⟨_, partly⟩, rfl⟩
        exact ⟨partly, by omega⟩
    | cons run more =>
      have := positive run (by simp)
      rw [total_cons] at split
      simp [show (w.c % 4096 + turnBytes w c) % 4096 = 0 by omega]
  rw [h.turnKeys_eq far other, mem_extentKeys, head, tail]

theorem writeLoopKeys_done (done : w.numBlk = 0) (fuel : Nat) : writeLoopKeys env buf len offset fuel w = [] := by
  cases fuel with
  | zero => rfl
  | succ fuel => rw [writeLoopKeys, if_pos done]

/-- The loop looks up nothing but the blocks that the write covers in part. -/
theorem Progress.keys_subset (h : Progress env ok sbi inode len offset b' past rest w)
    (far : offset + len < 2 ^ 63) (fuel : Nat) :
    ∀ key ∈ writeLoopKeys env buf len offset fuel w, key ∈ partialBlocks len offset := by
  induction fuel generalizing past rest w with
  | zero => exact fun key member => absurd member not_mem_nil
  | succ fuel ih =>
    intro key member
    rw [writeLoopKeys] at member
    split at member
    · cases member
    rename_i more
    cases appends : w.appends with
    | true =>
      obtain ⟨keys, unaligned, _⟩ := h.keys_inPlace far appends
      rcases mem_append.mp member with now | later
      · rw [keys, mem_singleton] at now
        exact mem_partialBlocks.mpr (Or.inl ⟨unaligned, now⟩)
      rw [writeNext, if_pos appends] at later
      cases next : writeInPlace buf len offset w with
      | none =>
        rw [next] at later
        cases later
      | some w' =>
        rw [next, map_some, getD_some,
          writeLoopKeys_done (h.inPlace far appends next).numBlk] at later
        cases later
    | false =>
      obtain ⟨p, c, rest, rfl⟩ := h.rest_cons more
      rcases mem_append.mp member with now | later
      · rcases (h.keys_extent far appends key).mp now with ⟨⟨_, partly⟩, eq⟩ | ⟨⟨_, partly⟩, eq⟩
        · exact mem_partialBlocks.mpr (Or.inl ⟨partly, eq⟩)
        · exact mem_partialBlocks.mpr (Or.inr ⟨partly, eq⟩)
      rw [writeNext, appends, if_neg (by decide)] at later
      split at later
      · exact ih (h.extent far buf).1 key later
      · cases later

theorem Progress.key_first (h : Progress env ok sbi inode len offset b' [] rest w)
    (far : offset + len < 2 ^ 63) (more : w.numBlk ≠ 0) (partly : offset % 4096 ≠ 0) (fuel : Nat) :
    offset / 4096 ∈ writeLoopKeys env buf len offset (fuel + 1) w := by
  rw [writeLoopKeys, if_neg more]
  apply mem_append_left
  cases appends : w.appends with
  | true =>
    rw [(h.keys_inPlace far appends).1]
    exact mem_singleton_self _
  | false =>
    obtain ⟨p, c, rest, rfl⟩ := h.rest_cons more
    exact (h.keys_extent far appends _).mpr (Or.inl ⟨⟨rfl, partly⟩, rfl⟩)

/-- The last turn is reached, if the runs fit `ebuf`. -/
theorem Progress.key_last (h : Progress env ok sbi inode len offset b' past rest w)
    (far : offset + len < 2 ^ 63) (more : w.numBlk ≠ 0) (partly : (offset + len) % 4096 ≠ 0)
    (few : past.length + rest.length ≤ ebufSize) (enough : rest.length < fuel) :
    (offset + len - 1) / 4096 ∈ writeLoopKeys env buf len offset fuel w := by
  induction fuel generalizing past rest w with
  | zero => omega
  | succ fuel ih =>
    rw [writeLoopKeys, if_neg more]
    cases appends : w.appends with
    | true =>
      obtain ⟨keys, _, same⟩ := h.keys_inPlace far appends
      rw [keys, same partly]
      exact mem_append_left _ (mem_singleton_self _)
    | false =>
      obtain ⟨p, c, rest, rfl⟩ := h.rest_cons more
      cases rest with
      | nil =>
        exact mem_append_left _ ((h.keys_extent far appends _).mpr (Or.inr ⟨⟨rfl, partly⟩, rfl⟩))
      | cons run' rest =>
        have room : w.ebuf.length < ebufSize := by
          rw [h.ebuf, layout_length]
          simp only [length_cons] at few
          omega
        have next := (h.extent far buf).1
        have left : (writeExtent env buf len offset w).numBlk ≠ 0 := by
          have total := next.served.total
          have := next.served.positive run' (mem_cons_self ..)
          rw [total_cons] at total
          omega
        rw [writeNext, appends, if_neg (by decide), if_pos room, map_some, getD_some]
        apply mem_append_right
        refine ih next left ?_ (by simp only [length_cons] at enough ⊢; omega)
        simp only [length_append, length_cons, length_nil] at few ⊢
        omega

theorem blockCount_eq_zero (far : offset + len < 2 ^ 63) (none : blockCount len offset = 0) :
    partialBlocks len offset = [] := by
  rw [blockCount_eq far] at none
  unfold partialBlocks
  rw [if_neg (by omega), if_neg (by omega)]
  rfl

theorem writeBlocksKeys_iff (served : Served env ok sbi.storage.data.maps (blockCount len offset) rest b')
    (far : offset + len < 2 ^ 63) :
    (∀ key ∈ writeBlocksKeys env sbi inode buf len offset, key ∈ partialBlocks len offset) ∧
    (rest.length ≤ ebufSize → ∀ key ∈ partialBlocks len offset,
      key ∈ writeBlocksKeys env sbi inode buf len offset) := by
  have start := @Progress.start env ok sbi inode len offset b' rest served
  refine ⟨start.keys_subset far _, fun few key member => ?_⟩
  by_cases none : blockCount len offset = 0
  · rw [blockCount_eq_zero far none] at member
    cases member
  · rcases mem_partialBlocks.mp member with ⟨partly, rfl⟩ | ⟨partly, rfl⟩
    · exact start.key_first far none partly _
    · exact start.key_last far none partly (by simpa using few) (by omega)

theorem journals_partial (journals : inode.journals len offset = true) (far : offset + len < 2 ^ 63) :
    offset / 4096 ∈ partialBlocks len offset ∧ ∀ key ∈ partialBlocks len offset, key = offset / 4096 := by
  simp only [Inode.journals, Bool.and_eq_true, beq_iff_eq, decide_eq_true_eq, blockCount_eq far] at journals
  obtain ⟨⟨one, short⟩, -⟩ := journals
  refine ⟨mem_partialBlocks.mpr ?_, fun key member => ?_⟩
  · by_cases partly : offset % 4096 = 0
    · exact Or.inr ⟨by omega, by omega⟩
    · exact Or.inl ⟨partly, rfl⟩
  · rcases mem_partialBlocks.mp member with ⟨_, rfl⟩ | ⟨_, rfl⟩
    · rfl
    · omega

theorem inodeWriteKeys_iff (served : Served env ok sbi.storage.data.maps (blockCount len offset) rest b')
    (far : offset + len < 2 ^ 63) :
    (∀ key ∈ inodeWriteKeys env sbi inode buf len offset, key ∈ partialBlocks len offset) ∧
    (rest.length ≤ ebufSize → ∀ key ∈ partialBlocks len offset,
      key ∈ inodeWriteKeys env sbi inode buf len offset) := by
  unfold inodeWriteKeys
  split
  · rename_i journals
    obtain ⟨first, only⟩ := journals_partial journals far
    have maps := inodeWriteJournal_maps sbi inode buf len offset
    generalize inodeWriteJournal sbi inode buf len offset = out at maps
    obtain ⟨ret, sbi'⟩ := out
    simp only at maps
    rw [← maps] at served
    refine ⟨fun key member => ?_, fun _ key member => ?_⟩
    · rcases mem_cons.mp member with rfl | later
      · exact first
      · split at later
        · cases later
        · exact (writeBlocksKeys_iff served far).1 key later
    · rw [only key member]
      exact mem_cons_self
  · exact writeBlocksKeys_iff served far

end

/-! ## Every state that writes lead to -/

/-- The tree of the file is well-shaped. -/
def Inode.Shaped (inode : Inode) : Prop := ∃ base, Shape inode.bRoot base

theorem Inode.Shaped.insert (shaped : inode.Shaped) {data data' : DataSlots} {fe : Nat} {r : Int}
    (call : fileIndexInsert inode data fe = some (r, inode', data')) : inode'.Shaped := by
  obtain ⟨base, shape⟩ := shaped
  obtain ⟨⟨ret, tree, inode1, data1⟩, set, eq⟩ := map_eq_some_iff.mp call
  cases eq
  obtain ⟨base', shape', _⟩ := shape.setRange_settles set
  exact ⟨base', shape'⟩

theorem Inode.Shaped.append {inode inode' : Inode} (shaped : inode.Shaped) {env : Env} {s s' : Storage}
    {entry : PmFilent} {r : Except Int Nat}
    (call : fileAppendEntry env s inode entry = some (r, inode', s')) : inode'.Shaped := by
  obtain ⟨c, inode1, files, eq, choice⟩ | ⟨_, num, eq⟩ :=
    chooseEntry_cases env s.files inode (trunc32 (entry.blocks * 4096))
  · simp only [fileAppendEntry, eq] at call
    obtain ⟨⟨ret, inode2, data⟩, insert, rest⟩ := map_eq_some_iff.mp call
    cases rest
    have filled : (fillEntry inode1 c entry).Shaped := by
      unfold Inode.Shaped
      rw [show (fillEntry inode1 c entry).bRoot = inode.bRoot from choice.kept.2.1]
      exact shaped
    have done : inode2.Shaped := filled.insert insert
    exact done
  · simp only [fileAppendEntry, eq] at call
    cases call
    exact shaped

/-- One write of any kind that returns. -/
def Inode.Written (inode inode' : Inode) : Prop :=
  ∃ env sbi buf len offset ret sbi',
    inodeWriteAtomic env sbi inode buf len offset = some (ret, inode', sbi')

/-- After any writes, a read stays inside of the index if it ends below the keys of the tree, and a
write just when the blocks that it covers in part are such keys. -/
theorem index_lookups_inside {iNo : Nat} {ghost : Int} {nodes entries : Nat → Bool}
    (granted : ∀ n, nodes n = true) {inode0 inode : Inode}
    (new : newInode iNo ghost nodes entries = some inode0) (run : Run Inode.Written inode0 inode) :
    (∀ len offset, offset + readLen inode len offset ≤ 4096 * maxKeys inode.bRoot.height →
      LookupsInside inode (inodeReadKeys inode len offset)) ∧
    ∀ (env : Env) (ok : Maps → Nat → Nat → Nat → Prop) (sbi : Sbi) (buf : Mem) (len offset : Nat)
      (runs : List (Nat × Nat)) (b' : Maps),
      Served env ok sbi.storage.data.maps (blockCount len offset) runs b' → offset + len < 2 ^ 63 →
      ((∀ key ∈ partialBlocks len offset, key < maxKeys inode.bRoot.height) →
        LookupsInside inode (inodeWriteKeys env sbi inode buf len offset)) ∧
      (runs.length ≤ ebufSize → LookupsInside inode (inodeWriteKeys env sbi inode buf len offset) →
        ∀ key ∈ partialBlocks len offset, key < maxKeys inode.bRoot.height) := by
  have start : inode0.Shaped := (newInode_new granted new).indexed.tree
  obtain ⟨base, shape⟩ := Run.invariant (I := Inode.Shaped) (fun shaped step => by
    obtain ⟨env, sbi, buf, len, offset, ret, sbi', call⟩ := step
    exact inodeWriteAtomic_keeps (P := fun inode _ => inode.Shaped) (fun h call => h.append call)
      (fun _ h => h) (fun _ h => h) shaped call) run start
  refine ⟨fun len offset low => LookupsInside.of_read shape low, fun env ok sbi buf len offset runs b' served far => ?_⟩
  obtain ⟨only, all⟩ := @inodeWriteKeys_iff env ok sbi inode buf len offset b' runs served far
  refine ⟨fun low key member => ?_, fun few inside key member => ?_⟩
  · exact (shape.indices_inside_iff key).mpr (low key (only key member))
  · exact (shape.indices_inside_iff key).mp (inside key (all few key member))

/-- A new file of ten bytes is read from its beginning and written inside of its first block. -/
theorem index_lookups_inside_first : ∃ inode0 inode, newInode 1 1 (fun _ => true) (fun _ => true) = some inode0 ∧
    Run Inode.Written inode0 inode ∧ inodeReadKeys inode 10 0 = [0] ∧
    LookupsInside inode (inodeReadKeys inode 10 0) ∧
    LookupsInside inode (inodeWriteKeys firstFit (blankSbi 64 0) inode (fun _ => 1) 50 100) := by
  have made : (newInode 1 1 (fun _ => true) (fun _ => true)).bind (fun inode0 =>
      (inodeWriteAtomic firstFit (blankSbi 64 0) inode0 (fun _ => 1) 10 0).map fun out =>
        (out.2.1.bRoot.height, readLen out.2.1 10 0, inodeReadKeys out.2.1 10 0)) = some (0, 10, [0]) := by
    decide +kernel
  obtain ⟨inode0, new, made⟩ := bind_eq_some_iff.mp made
  obtain ⟨⟨ret, inode, sbi⟩, call, eq⟩ := map_eq_some_iff.mp made
  simp only [Prod.mk.injEq] at eq
  obtain ⟨height, ten, keys⟩ := eq
  have run : Run Inode.Written inode0 inode := .single ⟨_, _, _, _, _, _, _, call⟩
  obtain ⟨maps, served⟩ := firstFit_first (fun _ _ _ _ => True) trivial
  obtain ⟨reads, writes⟩ := index_lookups_inside (fun _ => rfl) new run
  refine ⟨inode0, inode, new, run, keys, reads 10 0 (by rw [ten, height]; decide), ?_⟩
  refine (writes firstFit _ (blankSbi 64 0) (fun _ => 1) 50 100 _ maps served (by decide)).1 ?_
  rw [height]
  decide

/-- One byte behind the first 256 blocks of a new file: the lookups of a read and of a write leave
the array. -/
theorem index_lookup_outside :
    (newInode 1 1 (fun _ => true) (fun _ => true)).map (fun inode =>
      (inodeReadKeys inode 1 (2 ^ 20), inodeWriteKeys firstFit (blankSbi 64 0) inode (fun _ => 1) 1 (2 ^ 20),
        btreeGetIndices inode.bRoot 256)) = some ([256], [256, 256], [256]) := by
  decide +kernel

end SlotFs
