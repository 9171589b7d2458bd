import SlotFs.Directory

/-!
# Lookup by name

`inode_lookup` compares hashes and never names. Beside a directory stands the list of what was
entered and not since removed, with the names as they were given.
-/

namespace SlotFs
open CWord Runs List

/-- `inode_lookup` on a directory. -/
def inodeLookup (dir : Dir) (name : List (BitVec 8)) : Option Nat := direntLookup dir (bkdrHash name)

structure NamedDir where
  dir : Dir
  storage : DirStorage
  live : List (List (BitVec 8) × Nat)

/-- One call. A name is entered only when `inode_lookup` has not found it, and any entry may be
removed. -/
inductive NameStep (s : NamedDir) : NamedDir → Prop
  | append (rb : Rbtree) (cpu : Maps → Nat) (inode inode' : EntryInode) (name : List (BitVec 8)) (d : Nat)
      (dir : Dir) (storage : DirStorage) (absent : inodeLookup s.dir name = none)
      (call : dirAppendEntry rb cpu s.storage s.dir inode name = (.ok d, dir, inode', storage)) :
      NameStep s ⟨dir, storage, s.live ++ [(name, d)]⟩
  | refused (rb : Rbtree) (cpu : Maps → Nat) (inode inode' : EntryInode) (name : List (BitVec 8)) (e : Int)
      (dir : Dir) (storage : DirStorage) (absent : inodeLookup s.dir name = none)
      (call : dirAppendEntry rb cpu s.storage s.dir inode name = (.error e, dir, inode', storage)) :
      NameStep s ⟨dir, storage, s.live⟩
  | remove (rb : Rbtree) (d : Nat) (dir : Dir) (storage : DirStorage) (member : d ∈ s.dir.list)
      (call : dirRemoveEntry rb s.storage s.dir d = some (dir, storage)) :
      NameStep s ⟨dir, storage, s.live.filter fun e => e.2 != d⟩

/-- The entries of the directory are those that were entered, under the hashes of their names. -/
structure NamedDir.Ok (s : NamedDir) : Prop where
  indexed : s.dir.Indexed
  entries : s.live.map Prod.snd = s.dir.list
  hashes : ∀ e ∈ s.live, (s.dir.dents e.2).hash = bkdrHash e.1

/-- No other name among the entries has the hash of `name`. -/
def NamedDir.Apart (s : NamedDir) (name : List (BitVec 8)) : Prop :=
  ∀ e ∈ s.live, bkdrHash e.1 = bkdrHash name → e.1 = name

section
variable {s t : NamedDir}

theorem NameStep.ok (step : NameStep s t) (ok : s.Ok) : t.Ok := by
  cases step with
  | append rb cpu inode inode' name d dir storage absent call =>
    obtain ⟨d', ghost, dirs, dir', _, entered, eq⟩ | eq :=
      dirAppendEntry_cases ok.indexed rb cpu s.storage inode (ok.indexed.absent absent)
    · cases eq.symm.trans call
      refine ⟨entered.indexed, ?_, fun e mem => ?_⟩
      · rw [map_append, ok.entries, entered.list]
        rfl
      dsimp only
      rw [entered.dents]
      rcases mem_append.mp mem with old | new
      · have other : e.2 ≠ d := by
          rintro rfl
          exact entered.new (ok.entries ▸ mem_map_of_mem old)
        rw [Function.update_of_ne other]
        exact ok.hashes e old
      · rw [mem_singleton.mp new, Function.update_self]
    · rw [eq] at call
      cases congrArg Prod.fst call
  | refused rb cpu inode inode' name e dir storage absent call =>
    obtain ⟨d', ghost, dirs, dir', _, entered, eq⟩ | eq :=
      dirAppendEntry_cases ok.indexed rb cpu s.storage inode (ok.indexed.absent absent)
    · rw [eq] at call
      cases congrArg Prod.fst call
    · cases eq.symm.trans call
      have ⟨same, ordered, once, asked⟩ := ok.indexed
      exact ⟨⟨same, ordered, once, fun d mem => Nat.lt_succ_of_lt (asked d mem)⟩, ok.entries, ok.hashes⟩
  | remove rb d dir storage member call =>
    have erased := dirRemoveEntry_erased ok.indexed call
    refine ⟨erased.indexed, ?_, fun e mem => ?_⟩
    · dsimp only
      rw [erased.list, ok.indexed.once.erase_eq_filter, ← ok.entries, filter_map]
      rfl
    · dsimp only
      rw [erased.dents]
      exact ok.hashes e (mem_of_mem_filter mem)

theorem NamedDir.Ok.unique (ok : s.Ok) {m n : List (BitVec 8)} {d : Nat} (left : (m, d) ∈ s.live)
    (right : (n, d) ∈ s.live) : m = n := by
  have once : (s.live.map Prod.snd).Nodup := ok.entries ▸ ok.indexed.once
  exact congrArg Prod.fst (inj_on_of_nodup_map once left right rfl)

theorem NamedDir.Ok.lookup (ok : s.Ok) {name : List (BitVec 8)} {d : Nat} :
    inodeLookup s.dir name = some d ↔ ∃ m, (m, d) ∈ s.live ∧ bkdrHash m = bkdrHash name := by
  rw [inodeLookup, ok.indexed.lookup, ← ok.entries]
  constructor
  · rintro ⟨mem, hash⟩
    obtain ⟨⟨m, d'⟩, live, rfl⟩ := mem_map.mp mem
    exact ⟨m, live, (ok.hashes _ live).symm.trans hash⟩
  · rintro ⟨m, live, hash⟩
    exact ⟨mem_map_of_mem live, (ok.hashes _ live).trans hash⟩

/-- In every run, a lookup finds just what was entered under the name and not since removed, if and
only if no entry has another name with the same hash. -/
theorem lookup_is_by_name (ok : s.Ok) (run : Run NameStep s t) (name : List (BitVec 8)) :
    (∀ d, inodeLookup t.dir name = some d ↔ (name, d) ∈ t.live) ↔ t.Apart name := by
  have ok : t.Ok := Run.invariant (I := fun s : NamedDir => s.Ok) (fun ok step => step.ok ok) run ok
  constructor
  · rintro exact_ ⟨m, d⟩ live hash
    exact ok.unique live ((exact_ d).mp (ok.lookup.mpr ⟨m, live, hash⟩))
  intro apart d
  rw [ok.lookup]
  constructor
  · rintro ⟨m, live, hash⟩
    rw [← apart (m, d) live hash]
    exact live
  · exact fun live => ⟨name, live, rfl⟩

end

/-! ## Two names with one hash -/

/-- The names `ad` and `b\341`. -/
def nameAd : List (BitVec 8) := [0x61#8, 0x64#8]
def nameB : List (BitVec 8) := [0x62#8, 0xe1#8]

example : bkdrHash nameAd = bkdrHash nameB := by decide

def emptyNamed : NamedDir := ⟨emptyDir.dir, emptyDir.storage, []⟩

theorem emptyNamed_ok : emptyNamed.Ok := ⟨.empty rfl rfl, rfl, fun e mem => by cases mem⟩

/-- The directory with the entry `ad` for inode 5. -/
def withAd : NamedDir :=
  let out := dirAppendEntry plainRb (fun _ => 0) emptyNamed.storage emptyNamed.dir ⟨5, 0, 0⟩ nameAd
  ⟨out.2.1, out.2.2.2, [(nameAd, 0)]⟩

theorem withAd_run : Run NameStep emptyNamed withAd :=
  .single (.append plainRb (fun _ => 0) ⟨5, 0, 0⟩ _ nameAd 0 _ _ (by decide +kernel) rfl)

theorem lookup_is_by_name_ad : (∀ d, inodeLookup withAd.dir nameAd = some d ↔ (nameAd, d) ∈ withAd.live) ∧
    withAd.Apart nameAd := by
  have apart : withAd.Apart nameAd := fun e mem _ => congrArg Prod.fst (mem_singleton.mp mem)
  exact ⟨(lookup_is_by_name emptyNamed_ok withAd_run nameAd).mpr apart, apart⟩

/-- The lookup of a name that was never entered finds the entry of another one. -/
theorem lookup_finds_another : Run NameStep emptyNamed withAd ∧
    nameB.length ≤ 64 ∧ 0#8 ∉ nameB ∧ 0x2f#8 ∉ nameB ∧
    ¬ ∀ d, inodeLookup withAd.dir nameB = some d ↔ (nameB, d) ∈ withAd.live := by
  refine ⟨withAd_run, by decide, by decide, by decide, fun all => ?_⟩
  have found : inodeLookup withAd.dir nameB = some 0 := by decide +kernel
  have live := (all 0).mp found
  revert live
  decide

/-! ## Short names -/

/-- At most nine characters, none of them the terminator or negative. -/
structure ShortName (name : List (BitVec 8)) : Prop where
  length : 1 ≤ name.length ∧ name.length ≤ 9
  ascii : ∀ c ∈ name, 1 ≤ c.toNat ∧ c.toNat ≤ 127

/-- The characters are the digits of the hash, which does not wrap. -/
theorem bkdrHash_digits {name : List (BitVec 8)} (length : name.length ≤ 9)
    (ascii : ∀ c ∈ name, 1 ≤ c.toNat ∧ c.toNat ≤ 127) :
    bkdrHash name = Nat.ofDigits 131 (name.reverse.map BitVec.toNat) := by
  induction name using reverseRecOn with
  | nil => rfl
  | append_singleton front c ih =>
    have first := ih (by simp at length; omega) fun c' member => ascii c' (mem_append_left _ member)
    have last := ascii c (by simp)
    have bound : Nat.ofDigits 131 (front.reverse.map BitVec.toNat) < 131 ^ 8 := by
      refine (Nat.ofDigits_lt_base_pow_length' fun d member => ?_).trans_le
        (Nat.pow_le_pow_right (by decide) (by simp at length ⊢; omega))
      obtain ⟨c', inside, rfl⟩ := mem_map.mp member
      have := ascii c' (by simp [mem_reverse.mp inside])
      omega
    have positive : c.toInt = c.toNat := BitVec.toInt_eq_toNat_of_lt (by omega)
    rw [bkdrHash, foldl_append, ← bkdrHash, foldl_cons, foldl_nil, first, positive, reverse_append,
      reverse_singleton, singleton_append, map_cons, Nat.ofDigits_cons, wrapInt64]
    omega

/-- Short names have different hashes, also where their lengths differ. -/
theorem short_names_never_alias {a b : List (BitVec 8)} (first : ShortName a) (second : ShortName b)
    (same : bkdrHash a = bkdrHash b) : a = b := by
  have digits {name : List (BitVec 8)} (short : ShortName name) :
      Nat.digits 131 (bkdrHash name) = name.reverse.map BitVec.toNat := by
    rw [bkdrHash_digits short.length.2 short.ascii]
    refine Nat.digits_ofDigits 131 (by decide) _ (fun d member => ?_) fun some_ => ?_
    · obtain ⟨c, inside, rfl⟩ := mem_map.mp member
      have := short.ascii c (mem_reverse.mp inside)
      omega
    · obtain ⟨c, member, eq⟩ := mem_map.mp (getLast_mem some_)
      have := short.ascii c (mem_reverse.mp member)
      omega
  have reversed := (digits first).symm.trans ((congrArg _ same).trans (digits second))
  exact reverse_injective (map_injective_iff.mpr (fun _ _ => BitVec.eq_of_toNat_eq) reversed)

theorem short_names_never_alias_two : bkdrHash nameAd ≠ bkdrHash [0x62#8] := fun same =>
  absurd (short_names_never_alias ⟨by decide, by decide⟩ ⟨by decide, by decide⟩ same) (by decide)

end SlotFs
