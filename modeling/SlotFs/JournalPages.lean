import SlotFs.Journal
import SlotFs.Lib.Runs

/-!
# Journal pages

`journal_alloc` hands out the pages of the journal and `journal_free` takes them back.
`use` says which pages are out, and `count` is meant to say how many. A request that finds
`count` at 0 gets the first page without a look at `use`, and is not counted.
-/

namespace SlotFs
open CWord Runs Function List JnlMgr

def journalMgrInit (mgr : JnlMgr) : JnlMgr :=
  ⟨fun i => if i < journalNum then false else mgr.use i, 0⟩

def pageAt (i : Nat) : Nat := journalStart + i * 4096

/-- The true entries of `use`. -/
def JnlMgr.pages (mgr : JnlMgr) : Finset Nat :=
  (Finset.range journalNum).filter fun i => mgr.use i = true

/-- History only: the pages that have been handed out and not given back, and how many
requests have not been counted. -/
structure JnlState where
  mgr : JnlMgr
  outstanding : List Nat
  uncounted : Nat

/-- One call; `allowed` says when a page may be asked for. -/
inductive JnlStep (allowed : JnlMgr → Prop) (s : JnlState) : JnlState → Prop
  | alloc (page : Nat) (mgr : JnlMgr) (ask : allowed s.mgr)
      (call : journalAlloc s.mgr = (page, mgr)) (found : page ≠ 0) :
      JnlStep allowed s
        ⟨mgr, page :: s.outstanding, s.uncounted + if s.mgr.count = 0 then 1 else 0⟩
  | full (mgr : JnlMgr) (ask : allowed s.mgr) (call : journalAlloc s.mgr = (0, mgr)) :
      JnlStep allowed s { s with mgr }
  | free (page : Nat) (out : page ∈ s.outstanding) :
      JnlStep allowed s
        { s with mgr := journalFree s.mgr page, outstanding := s.outstanding.erase page }
  | commit (page : Nat) (low low' : Mem) (mgr : JnlMgr) (out : page ∈ s.outstanding)
      (call : journalCommit low s.mgr page = (low', mgr)) :
      JnlStep allowed s { s with mgr, outstanding := s.outstanding.erase page }

structure JnlState.Ok (s : JnlState) : Prop where
  used : ∀ page, page ∈ s.outstanding ↔ ∃ i ∈ s.mgr.pages, page = pageAt i
  once : s.outstanding.Nodup
  count : s.mgr.count + s.uncounted = s.mgr.pages.card

/-- The first page is free where a request would get it without a look. -/
def FirstFree (mgr : JnlMgr) : Prop := mgr.count = 0 → mgr.use 0 = false

theorem JnlMgr.mem_pages {mgr : JnlMgr} {i : Nat} : i ∈ mgr.pages ↔ i < journalNum ∧ mgr.use i = true := by
  simp [pages]

theorem pageAt_inj {i j : Nat} : pageAt i = pageAt j ↔ i = j := by
  unfold pageAt
  omega

theorem pageAt_pos (i : Nat) : 0 < pageAt i := Nat.add_pos_left (by decide) _

section
variable {mgr : JnlMgr} {i : Nat}

theorem pages_take (inside : i < journalNum) (count : Int) :
    pages ⟨update mgr.use i true, count⟩ = insert i mgr.pages := by
  ext j
  rw [Finset.mem_insert, mem_pages, mem_pages]
  by_cases same : j = i
  · subst same
    simp [inside]
  · simp [same]

theorem pages_give (i : Nat) (count : Int) : pages ⟨update mgr.use i false, count⟩ = mgr.pages.erase i := by
  ext j
  rw [Finset.mem_erase, mem_pages, mem_pages]
  by_cases same : j = i
  · subst same
    simp
  · simp [same]

theorem journalFree_page (inside : i < journalNum) :
    journalFree mgr (pageAt i) = ⟨update mgr.use i false, mgr.count - 1⟩ := by
  have bound : i < 256 := inside
  have index : sub64 (pageAt i) journalStart / 4096 = i := by
    unfold pageAt journalStart
    rw [sub64_of_le (Nat.le_add_right _ _) (by omega)]
    omega
  rw [journalFree, index]

theorem journalAlloc_cases (mgr : JnlMgr) :
    (∃ i, i < journalNum ∧ (mgr.count = 0 → i = 0) ∧ (mgr.count ≠ 0 → mgr.use i = false) ∧
      journalAlloc mgr = (pageAt i,
        ⟨update mgr.use i true, mgr.count + if mgr.count = 0 then 0 else 1⟩)) ∨
    journalAlloc mgr = (0, mgr) := by
  by_cases zero : mgr.count = 0
  · refine Or.inl ⟨0, by decide, fun _ => rfl, fun other => absurd zero other, ?_⟩
    simp [journalAlloc, zero, pageAt]
  cases search : (List.range journalNum).find? fun i => !mgr.use i with
  | none =>
    refine Or.inr ?_
    simp [journalAlloc, zero, search]
  | some i =>
    have inside := mem_range.mp (mem_of_find?_eq_some search)
    have free := List.find?_some search
    refine Or.inl ⟨i, inside, fun z => absurd z zero, fun _ => by simpa using free, ?_⟩
    simp [journalAlloc, zero, search, pageAt]

/-- A request that is allowed gets a page that is not out, or none. -/
theorem journalAlloc_free (ask : FirstFree mgr) : (∃ i, i < journalNum ∧ i ∉ mgr.pages ∧
      journalAlloc mgr = (pageAt i,
        ⟨update mgr.use i true, mgr.count + if mgr.count = 0 then 0 else 1⟩)) ∨
    journalAlloc mgr = (0, mgr) := by
  rcases journalAlloc_cases mgr with ⟨i, inside, first, other, call⟩ | call
  · refine Or.inl ⟨i, inside, fun used => ?_, call⟩
    have taken := (mem_pages.mp used).2
    by_cases zero : mgr.count = 0
    · rw [first zero, ask zero] at taken
      cases taken
    · cases (other zero).symm.trans taken
  · exact Or.inr call

end

section
variable {s t : JnlState}

theorem JnlState.Ok.init (mgr : JnlMgr) : JnlState.Ok ⟨journalMgrInit mgr, [], 0⟩ := by
  have none : (journalMgrInit mgr).pages = ∅ := by
    ext i
    simp only [mem_pages, journalMgrInit, Finset.notMem_empty, iff_false]
    rintro ⟨inside, used⟩
    simp [inside] at used
  refine ⟨fun page => ?_, nodup_nil, ?_⟩
  · simp [none]
  · rw [none]
    rfl

theorem JnlState.Ok.outside (ok : s.Ok) {i : Nat} (free : i ∉ s.mgr.pages) : pageAt i ∉ s.outstanding := by
  intro member
  obtain ⟨j, used, same⟩ := (ok.used _).mp member
  rw [pageAt_inj.mp same] at free
  exact free used

theorem JnlState.Ok.take (ok : s.Ok) {i : Nat} (inside : i < journalNum) (free : i ∉ s.mgr.pages) :
    JnlState.Ok ⟨⟨update s.mgr.use i true, s.mgr.count + if s.mgr.count = 0 then 0 else 1⟩,
      pageAt i :: s.outstanding, s.uncounted + if s.mgr.count = 0 then 1 else 0⟩ := by
  refine ⟨fun page => ?_, nodup_cons.mpr ⟨ok.outside free, ok.once⟩, ?_⟩
  · rw [mem_cons, ok.used page, pages_take inside]
    simp
  have count := ok.count
  rw [pages_take inside, Finset.card_insert_of_notMem free]
  dsimp only
  split <;> push_cast <;> omega

theorem JnlState.Ok.give (ok : s.Ok) {page : Nat} (out : page ∈ s.outstanding) : JnlState.Ok { s with
      mgr := journalFree s.mgr page, outstanding := s.outstanding.erase page } := by
  obtain ⟨i, used, rfl⟩ := (ok.used page).mp out
  rw [journalFree_page (mem_pages.mp used).1]
  refine ⟨fun page => ?_, ok.once.erase _, ?_⟩
  · rw [ok.once.mem_erase_iff, ok.used page, pages_give]
    constructor
    · rintro ⟨other, j, there, rfl⟩
      exact ⟨j, Finset.mem_erase.mpr ⟨fun e => other (e ▸ rfl), there⟩, rfl⟩
    · rintro ⟨j, there, rfl⟩
      obtain ⟨other, there⟩ := Finset.mem_erase.mp there
      exact ⟨fun e => other (pageAt_inj.mp e), j, there, rfl⟩
  have count := ok.count
  have pos := Finset.card_pos.mpr ⟨i, used⟩
  rw [pages_give, Finset.card_erase_of_mem used]
  dsimp only
  omega

theorem JnlStep.ok (ok : s.Ok) (step : JnlStep FirstFree s t) : t.Ok := by
  cases step with
  | alloc page mgr ask call found =>
    rcases journalAlloc_free ask with ⟨i, inside, free, got⟩ | none
    · cases got.symm.trans call
      exact ok.take inside free
    · cases none.symm.trans call
      exact absurd rfl found
  | full mgr ask call =>
    rcases journalAlloc_free ask with ⟨i, _, _, got⟩ | none
    · rw [got] at call
      have zero := congrArg Prod.fst call
      exact absurd zero (pageAt_pos i).ne'
    · cases none.symm.trans call
      exact ok
  | free page out => exact ok.give out
  | commit page low low' mgr out call =>
    cases call
    exact ok.give out

/-- While no page is asked for when `count` is 0 and the first page is out, no page is
handed out twice, and `count` is the number of pages that are out less the requests that
found it at 0. -/
theorem journal_pages_exclusive {s t : JnlState} (ok : s.Ok) (run : Run (JnlStep FirstFree) s t) :
    (∀ page mgr, FirstFree t.mgr → journalAlloc t.mgr = (page, mgr) → page ∉ t.outstanding) ∧
    t.mgr.count + t.uncounted = t.mgr.pages.card := by
  have ok : t.Ok := run.invariant (fun ok step => step.ok ok) ok
  refine ⟨fun page mgr ask call => ?_, ok.count⟩
  rcases journalAlloc_free ask with ⟨i, _, free, got⟩ | none
  · cases got.symm.trans call
    exact ok.outside free
  cases none.symm.trans call
  intro member
  obtain ⟨i, _, zero⟩ := (ok.used 0).mp member
  have := pageAt_pos i
  omega

/-- A page is asked for and given back. -/
theorem journal_pages_exclusive_once : ∃ t : JnlState,
    Run (JnlStep FirstFree) ⟨journalMgrInit ⟨fun _ => true, 7⟩, [], 0⟩ t ∧
      t.uncounted = 1 ∧ t.mgr.count + t.uncounted = t.mgr.pages.card := by
  have taken : Run (JnlStep FirstFree) ⟨journalMgrInit ⟨fun _ => true, 7⟩, [], 0⟩ _ :=
    .single (.alloc (pageAt 0) _ (fun _ => rfl) rfl (by decide))
  have given := taken.tail (.free (pageAt 0) (by simp))
  exact ⟨_, given, rfl, (journal_pages_exclusive (.init _) given).2⟩

theorem JnlStep.counted (h : s.Ok ∧ s.uncounted = 0) (step : JnlStep (fun mgr => mgr.count ≠ 0) s t) :
    t.Ok ∧ t.uncounted = 0 := by
  obtain ⟨ok, exact⟩ := h
  cases step with
  | alloc page mgr ask call found =>
    refine ⟨JnlStep.ok ok (.alloc page mgr (fun zero => absurd zero ask) call found), ?_⟩
    rw [if_neg ask, exact]
  | full mgr ask call => exact ⟨JnlStep.ok ok (.full mgr (fun zero => absurd zero ask) call), exact⟩
  | free page out => exact ⟨ok.give out, exact⟩
  | commit page low low' mgr out call => exact ⟨JnlStep.ok ok (.commit page low low' mgr out call), exact⟩

/-- While no request finds `count` at 0, it is the number of pages that are out. -/
theorem journal_count_exact (ok : s.Ok) (exact : s.uncounted = 0)
    (run : Run (JnlStep fun mgr => mgr.count ≠ 0) s t) : t.mgr.count = t.mgr.pages.card := by
  obtain ⟨ok, exact⟩ := run.invariant (fun h step => step.counted h) ⟨ok, exact⟩
  have count := ok.count
  rw [exact] at count
  omega

/-- One page is out and counted. -/
def oneOut : JnlState := ⟨⟨update (fun _ => false) 0 true, 1⟩, [pageAt 0], 0⟩

theorem oneOut_ok : oneOut.Ok := by
  have pages : oneOut.mgr.pages = {0} := by decide
  refine ⟨fun page => ?_, nodup_singleton _, ?_⟩
  · rw [pages]
    simp [oneOut]
  · rw [pages]
    rfl

/-- Another page is asked for, and the first one given back. -/
theorem journal_count_exact_two : ∃ t, Run (JnlStep fun mgr => mgr.count ≠ 0) oneOut t ∧
    t.outstanding = [pageAt 1] ∧ t.mgr.count = t.mgr.pages.card := by
  have run : Run (JnlStep fun mgr => mgr.count ≠ 0) oneOut _ :=
    .tail (.single (.alloc (pageAt 1) _ (by decide) rfl (by decide))) (.free (pageAt 0) (by simp [oneOut]))
  exact ⟨_, run, rfl, journal_count_exact oneOut_ok rfl run⟩

/-- The second request gets the page of the first. -/
theorem first_page_shared : ∃ t : JnlState,
    Run (JnlStep fun _ => True) ⟨journalMgrInit ⟨fun _ => true, 7⟩, [], 0⟩ t ∧
      t.outstanding = [pageAt 0, pageAt 0] ∧ t.mgr.count < t.mgr.pages.card := by
  have first : Run (JnlStep fun _ => True) ⟨journalMgrInit ⟨fun _ => true, 7⟩, [], 0⟩ _ :=
    .single (.alloc (pageAt 0) _ trivial rfl (by decide))
  have second := first.tail (.alloc (pageAt 0) _ trivial rfl (by decide))
  refine ⟨_, second, rfl, Int.natCast_pos.mpr (Finset.card_pos.mpr ⟨0, ?_⟩)⟩
  exact mem_pages.mpr ⟨by decide, rfl⟩

end

end SlotFs
