import Mathlib

/-!
# Records with timestamps

Every record of a list says something about the keys it covers. For a key the newest record
counts, and of several that are as new the first. One record of the list is exchanged for
another, a part at a time: which keys does a half-written record decide?
-/

namespace Stamped
open List

variable {ρ κ β τ : Type*}

/-- `m` with the values `f` on `s`. -/
noncomputable def patch (s : Set κ) (f : κ → β) (m : κ → Option β) : κ → Option β :=
  open Classical in fun k => if k ∈ s then some (f k) else m k

section
variable {s t : Set κ} {f g : κ → β} {m : κ → Option β} {k : κ}

theorem patch_of_mem (member : k ∈ s) : patch s f m k = some (f k) := if_pos member

theorem patch_of_not_mem (outside : k ∉ s) : patch s f m k = m k := if_neg outside

theorem patch_eq_self_iff : patch s f m = m ↔ ∀ k ∈ s, m k = some (f k) := by
  constructor
  · intro same k member
    rw [← patch_of_mem member, same]
  intro here
  funext k
  by_cases member : k ∈ s
  · rw [patch_of_mem member, here k member]
  · exact patch_of_not_mem member

theorem patch_eq_patch_iff : patch s g m = patch t g m ↔ ∀ k, m k ≠ some (g k) → (k ∈ s ↔ k ∈ t) := by
  constructor
  · intro same k differs
    have here := congrFun same k
    by_cases left : k ∈ s <;> by_cases right : k ∈ t
    · exact iff_of_true left right
    · rw [patch_of_mem left, patch_of_not_mem right] at here
      exact absurd here.symm differs
    · rw [patch_of_not_mem left, patch_of_mem right] at here
      exact absurd here differs
    · exact iff_of_false left right
  intro both
  funext k
  by_cases here : m k = some (g k)
  · have either (u : Set κ) : patch u g m k = some (g k) := by
      by_cases member : k ∈ u
      · exact patch_of_mem member
      · rw [patch_of_not_mem member, here]
    rw [either, either]
  · by_cases left : k ∈ s
    · rw [patch_of_mem left, patch_of_mem ((both k here).mp left)]
    · rw [patch_of_not_mem left, patch_of_not_mem fun right => left ((both k here).mpr right)]

/-- A patch that differs everywhere from the one it is to become changes nothing yet. -/
theorem patch_eq_self_of_eq (apart : ∀ k, f k ≠ g k) (same : patch s f m = patch t g m) : patch s f m = m := by
  refine patch_eq_self_iff.mpr fun k member => ?_
  have here := congrFun same k
  rw [patch_of_mem member] at here
  by_cases other : k ∈ t
  · rw [patch_of_mem other] at here
    exact absurd (Option.some.inj here) (apart k)
  · rw [patch_of_not_mem other] at here
    exact here.symm

/-- The three states in which a record is half-written. The record covers `o`, with the old
values and then with the new ones, before it covers `n`; with its old timestamp it decides the
keys in `u`, and with its new one those in `v`. -/
theorem stages_iff {o n u v : Set κ} (apart : f = g ∨ ∀ k, f k ≠ g k) :
    ((patch (o ∩ u) f m = m ∨ patch (o ∩ u) f m = patch (n ∩ v) g m) ∧
      (patch (o ∩ u) g m = m ∨ patch (o ∩ u) g m = patch (n ∩ v) g m) ∧
      (patch (n ∩ u) g m = m ∨ patch (n ∩ u) g m = patch (n ∩ v) g m)) ↔
    (f = g ∨ ∀ k ∈ o ∩ u, m k = some (f k)) ∧ (∀ k ∈ o ∩ u, k ∉ n → m k = some (g k)) ∧
      ((∀ k ∈ n, m k ≠ some (g k) → k ∉ u) ∨
        (∀ k ∈ n, m k ≠ some (g k) → (k ∈ u ↔ k ∈ v) ∧ (k ∈ u → k ∈ o)) ∨
        ∀ k ∈ n, m k ≠ some (g k) → (k ∈ u ↔ k ∈ v) ∧ (k ∈ u → k ∉ o)) := by
  have first : (patch (o ∩ u) f m = m ∨ patch (o ∩ u) f m = patch (n ∩ v) g m) →
      f = g ∨ ∀ k ∈ o ∩ u, m k = some (f k) := by
    intro stage
    refine apart.imp_right fun differ => patch_eq_self_iff.mp ?_
    exact stage.elim id (patch_eq_self_of_eq differ)
  constructor
  · rintro ⟨one, two, three⟩
    refine ⟨first one, ?_, ?_⟩
    · intro k member outside
      by_contra differs
      rcases two with same | same
      · exact differs (patch_eq_self_iff.mp same k member)
      · exact outside ((patch_eq_patch_iff.mp same k differs).mp member).1
    rcases three with none | all
    · refine Or.inl fun k member differs used => differs ?_
      exact patch_eq_self_iff.mp none k ⟨member, used⟩
    have settled (k : κ) (member : k ∈ n) (differs : m k ≠ some (g k)) : k ∈ u ↔ k ∈ v := by
      have both := patch_eq_patch_iff.mp all k differs
      exact ⟨fun used => (both.mp ⟨member, used⟩).2, fun used => (both.mpr ⟨member, used⟩).2⟩
    rcases two with early | late
    · refine Or.inr (Or.inr fun k member differs => ⟨settled k member differs, fun used old => differs ?_⟩)
      exact patch_eq_self_iff.mp early k ⟨old, used⟩
    · refine Or.inr (Or.inl fun k member differs => ⟨settled k member differs, fun used => ?_⟩)
      exact ((patch_eq_patch_iff.mp late k differs).mpr
        ⟨member, (settled k member differs).mp used⟩).1
  · rintro ⟨place, beyond, once⟩
    have two : patch (o ∩ u) g m = m ∨ patch (o ∩ u) g m = patch (n ∩ v) g m := by
      rcases once with none | late | early
      · refine Or.inl (patch_eq_self_iff.mpr fun k member => ?_)
        by_contra differs
        exact differs (beyond k member fun inside => none k inside differs member.2)
      · refine Or.inr (patch_eq_patch_iff.mpr fun k differs => ⟨fun member => ?_, fun member => ?_⟩)
        · have inside : k ∈ n := by
            by_contra outside
            exact differs (beyond k member outside)
          exact ⟨inside, (late k inside differs).1.mp member.2⟩
        · obtain ⟨settled, reach⟩ := late k member.1 differs
          have used := settled.mpr member.2
          exact ⟨reach used, used⟩
      · refine Or.inl (patch_eq_self_iff.mpr fun k member => ?_)
        by_contra differs
        exact differs (beyond k member fun inside => (early k inside differs).2 member.2 member.1)
    have three : patch (n ∩ u) g m = m ∨ patch (n ∩ u) g m = patch (n ∩ v) g m := by
      have settle (both : ∀ k ∈ n, m k ≠ some (g k) → (k ∈ u ↔ k ∈ v)) :
          patch (n ∩ u) g m = patch (n ∩ v) g m :=
        patch_eq_patch_iff.mpr fun k differs => and_congr_right fun inside => both k inside differs
      rcases once with none | late | early
      · refine Or.inl (patch_eq_self_iff.mpr fun k member => ?_)
        by_contra differs
        exact none k member.1 differs member.2
      · exact Or.inr (settle fun k inside differs => (late k inside differs).1)
      · exact Or.inr (settle fun k inside differs => (early k inside differs).1)
    refine ⟨?_, two, three⟩
    rcases place with rfl | here
    · exact two
    · exact Or.inl (patch_eq_self_iff.mpr here)

end

section
variable [LinearOrder τ] {stamp : ρ → τ} {l front back : List ρ} {x : ρ}

theorem argmax_eq_of_lt (member : x ∈ l) (newest : ∀ r ∈ l, r = x ∨ stamp r < stamp x) :
    l.argmax stamp = some x := by
  cases best : l.argmax stamp with
  | none =>
    rw [argmax_eq_none.mp best] at member
    cases member
  | some r =>
    rcases newest r (argmax_mem best) with rfl | older
    · rfl
    · exact absurd older (not_lt.mpr (le_of_mem_argmax member best))

/-- A record counts if those in front of it are older and none behind it is newer; else it
makes no difference. -/
theorem argmax_middle : (front ++ x :: back).argmax stamp =
    if (∀ r ∈ front, stamp r < stamp x) ∧ ∀ r ∈ back, stamp r ≤ stamp x then some x
    else (front ++ back).argmax stamp := by
  induction back using List.reverseRecOn with
  | nil =>
    rw [argmax_concat]
    cases best : front.argmax stamp with
    | none =>
      rw [argmax_eq_none.mp best]
      simp
    | some c =>
      have counts : (∀ r ∈ front, stamp r < stamp x) ↔ stamp c < stamp x :=
        ⟨fun older => older c (argmax_mem best),
          fun older r member => (le_of_mem_argmax member best).trans_lt older⟩
      simp [counts, best]
  | append_singleton back y ih =>
    rw [← cons_append, ← append_assoc, ← append_assoc, argmax_concat,
      argmax_concat, ih]
    by_cases counts : (∀ r ∈ front, stamp r < stamp x) ∧ ∀ r ∈ back, stamp r ≤ stamp x
    · rw [if_pos counts]
      by_cases newer : stamp x < stamp y
      · rw [if_neg fun all => absurd (all.2 y (by simp)) (not_le.mpr newer)]
        cases best : (front ++ back).argmax stamp with
        | none => simp [newer]
        | some c =>
          have below : stamp c ≤ stamp x := by
            rcases mem_append.mp (argmax_mem best) with member | member
            · exact (counts.1 c member).le
            · exact counts.2 c member
          simp [newer, below.trans_lt newer]
      have behind : ∀ r ∈ back ++ [y], stamp r ≤ stamp x := by
        intro r member
        rcases mem_append.mp member with inside | last
        · exact counts.2 r inside
        · rw [mem_singleton.mp last]
          exact not_lt.mp newer
      rw [if_pos ⟨counts.1, behind⟩]
      exact if_neg newer
    · rw [if_neg counts, if_neg fun all => counts ⟨all.1, fun r member => all.2 r (by simp [member])⟩]

end

section
variable [LinearOrder τ] (covers : ρ → κ → Prop) [∀ r k, Decidable (covers r k)] (stamp : ρ → τ)
  (value : ρ → κ → β)

/-- What the records say about a key. -/
def resolve (records : List ρ) (k : κ) : Option β :=
  ((records.filter fun r => covers r k).argmax stamp).map fun r => value r k

/-- The keys that a record with timestamp `t` decides between `front` and `back`. -/
def deciding (front back : List ρ) (t : τ) : Set κ :=
  {k | (∀ r ∈ front, covers r k → stamp r < t) ∧ ∀ r ∈ back, covers r k → stamp r ≤ t}

variable {covers stamp value} {front back : List ρ} {x : ρ}

theorem resolve_middle : resolve covers stamp value (front ++ x :: back) =
    patch ({k | covers x k} ∩ deciding covers stamp front back (stamp x)) (value x)
      (resolve covers stamp value (front ++ back)) := by
  funext k
  by_cases here : covers x k
  · have split : (front ++ x :: back).filter (fun r => covers r k) =
        front.filter (fun r => covers r k) ++ x :: back.filter fun r => covers r k := by
      simp [here]
    have counts_iff : ((∀ r ∈ front.filter fun r => covers r k, stamp r < stamp x) ∧
        ∀ r ∈ back.filter fun r => covers r k, stamp r ≤ stamp x) ↔
          k ∈ deciding covers stamp front back (stamp x) := by
      simp only [deciding, Set.mem_ofPred_eq, mem_filter, decide_eq_true_eq, and_imp]
    rw [resolve, split, argmax_middle]
    by_cases counts : k ∈ deciding covers stamp front back (stamp x)
    · have member : k ∈ {k | covers x k} ∩ deciding covers stamp front back (stamp x) := ⟨here, counts⟩
      rw [patch_of_mem member, if_pos (counts_iff.mpr counts), Option.map_some]
    · rw [patch_of_not_mem fun member => counts member.2, if_neg (mt counts_iff.mp counts), resolve,
        filter_append]
  · rw [patch_of_not_mem fun member => here member.1, resolve, resolve]
    simp [here]

end

end Stamped
