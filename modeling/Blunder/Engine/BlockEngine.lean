import Blunder.Core.Basic
import Blunder.Foundation.Packing
import Blunder.Foundation.StableSort
import Mathlib.Data.List.FinRange

/-!
# The bundle auction

`BlockEngine::select_winners` sorts the submissions by decreasing score with a stable
sort and keeps each bundle whose accounts are still free. A winner carries no score
and two submissions may hold the same bundle, so winners are identified by their
positions in the submission list (`winnerPositions`).

* `selectWinners_eq`: the loop over the submissions is the greedy packing of the
  positions.
* `selectWinners_spec`: feasibility, rank order and maximality of the winners.
* `selectWinners_approx`: with at most `k` accounts a bundle, `k` times the score of
  the winners is at least the score of any feasible choice.
* `selectWinners_monotone`: a winner that bids more still wins.
-/

namespace Blunder.BlockEngine

open Foundation.Packing Foundation.StableSort

/-! ## The auction -/

/-- `BlockEngine::has_conflicts`. -/
def hasConflicts (bundle : Bundle) (lockedAccounts : Finset Pubkey) : Bool :=
  !decide (Disjoint bundle.allAccounts lockedAccounts)

/-- One turn of the loop: the winners so far and their accounts. -/
def selectStep (acc : List Bundle × Finset Pubkey) (submission : BundleSubmission) :
    List Bundle × Finset Pubkey :=
  let (winners, lockedAccounts) := acc
  if !hasConflicts submission.bundle lockedAccounts then
    (winners ++ [submission.bundle], lockedAccounts ∪ submission.bundle.allAccounts)
  else
    (winners, lockedAccounts)

/-- `BlockEngine::select_winners`. -/
def selectWinners (submissions : List BundleSubmission) : Except MevError (List Bundle) :=
  .ok ((sortByKeyRev (fun s => s.score.toNat) submissions).foldl selectStep ([], ∅)).1

/-! ## Winners by position -/

section Positions

variable (submissions : List BundleSubmission)

/-- The accounts of the bundle at a position. -/
def accountsAt (i : Fin submissions.length) : Finset Pubkey := submissions[i].bundle.allAccounts

def scoreAt (i : Fin submissions.length) : ℕ := submissions[i].score.toNat

/-- Rank in the auction: higher score, or equal score and submitted earlier. -/
def RankedBefore (i j : Fin submissions.length) : Prop :=
  scoreAt submissions j < scoreAt submissions i ∨
    scoreAt submissions j = scoreAt submissions i ∧ i < j

/-- The positions in the order in which the loop visits them. -/
def rankedPositions : List (Fin submissions.length) :=
  sortByKeyRev (scoreAt submissions) (List.finRange submissions.length)

/-- The positions of the winners. -/
def winnerPositions : List (Fin submissions.length) :=
  select (accountsAt submissions) ∅ (rankedPositions submissions)

theorem sorted_eq_map_rankedPositions :
    sortByKeyRev (fun s => s.score.toNat) submissions =
      (rankedPositions submissions).map (fun i => submissions[i]) := by
  conv_lhs => rw [← List.map_get_finRange submissions]
  exact sortByKeyRev_map _ _ _

theorem rankedPositions_pairwise :
    (rankedPositions submissions).Pairwise (RankedBefore submissions) :=
  pairwise_sortByKeyRev (List.pairwise_lt_finRange _)

theorem mem_rankedPositions (i : Fin submissions.length) : i ∈ rankedPositions submissions :=
  (sortByKeyRev_perm _ _).mem_iff.mpr (List.mem_finRange i)

theorem rankedPositions_nodup : (rankedPositions submissions).Nodup :=
  (sortByKeyRev_perm _ _).nodup_iff.mpr (List.nodup_finRange _)

theorem winnerPositions_sublist :
    (winnerPositions submissions).Sublist (rankedPositions submissions) :=
  select_sublist ∅ _

/-- The loop over a list of positions appends the bundles of the greedy packing. -/
theorem foldl_selectStep (positions : List (Fin submissions.length)) (winners : List Bundle)
    (lockedAccounts : Finset Pubkey) :
    ((positions.map fun i => submissions[i]).foldl selectStep (winners, lockedAccounts)).1 =
      winners ++ (select (accountsAt submissions) lockedAccounts positions).map
        fun i => submissions[i].bundle := by
  induction positions generalizing winners lockedAccounts with
  | nil => simp [select]
  | cons i positions ih =>
    rw [List.map_cons, List.foldl_cons, select]
    by_cases hFree : Disjoint (accountsAt submissions i) lockedAccounts
    · have hFree' : hasConflicts submissions[i].bundle lockedAccounts = false := by
        rw [hasConflicts, Bool.not_eq_false', decide_eq_true_eq]
        exact hFree
      have hStep : selectStep (winners, lockedAccounts) submissions[i] =
          (winners ++ [submissions[i].bundle], lockedAccounts ∪ accountsAt submissions i) :=
        if_pos (by rw [hFree']; rfl)
      rw [hStep, ih, if_pos hFree, List.map_cons, List.append_assoc]
      rfl
    · have hTaken : hasConflicts submissions[i].bundle lockedAccounts = true := by
        rw [hasConflicts, Bool.not_eq_true', decide_eq_false_iff_not]
        exact hFree
      have hStep : selectStep (winners, lockedAccounts) submissions[i] =
          (winners, lockedAccounts) :=
        if_neg (by rw [hTaken]; decide)
      rw [hStep, ih, if_neg hFree]

theorem selectWinners_eq :
    selectWinners submissions =
      .ok ((winnerPositions submissions).map fun i => submissions[i].bundle) := by
  rw [selectWinners, sorted_eq_map_rankedPositions, foldl_selectStep, List.nil_append]
  rfl

end Positions

/-! ## Raising a bid -/

/-- The submissions with another score at position `i`. -/
def raiseBid (submissions : List BundleSubmission) (i : Fin submissions.length)
    (score : UInt64) : List BundleSubmission :=
  submissions.set i { submissions[i] with score := score }

section RaiseBid

variable (submissions : List BundleSubmission) (i : Fin submissions.length) (score : UInt64)

theorem length_raiseBid : submissions.length = (raiseBid submissions i score).length :=
  List.length_set.symm

theorem getElem_raiseBid_self :
    (raiseBid submissions i score)[i.cast (length_raiseBid submissions i score)] =
      { submissions[i] with score := score } :=
  List.getElem_set_self _

theorem getElem_raiseBid_of_ne {j : Fin submissions.length} (hj : j ≠ i) :
    (raiseBid submissions i score)[j.cast (length_raiseBid submissions i score)] =
      submissions[j] :=
  List.getElem_set_ne (fun h => hj (Fin.ext h.symm)) _

theorem accountsAt_raiseBid (j : Fin submissions.length) :
    accountsAt (raiseBid submissions i score) (j.cast (length_raiseBid submissions i score)) =
      accountsAt submissions j := by
  rw [accountsAt, accountsAt]
  by_cases hj : j = i
  · rw [hj, getElem_raiseBid_self]
  · rw [getElem_raiseBid_of_ne submissions i score hj]

theorem scoreAt_raiseBid_self :
    scoreAt (raiseBid submissions i score) (i.cast (length_raiseBid submissions i score)) =
      score.toNat := by
  rw [scoreAt, getElem_raiseBid_self]

theorem scoreAt_raiseBid_of_ne {j : Fin submissions.length} (hj : j ≠ i) :
    scoreAt (raiseBid submissions i score) (j.cast (length_raiseBid submissions i score)) =
      scoreAt submissions j := by
  rw [scoreAt, getElem_raiseBid_of_ne submissions i score hj, scoreAt]

theorem map_cast_finRange {m n : ℕ} (h : m = n) :
    (List.finRange m).map (Fin.cast h) = List.finRange n := by
  subst h
  exact List.map_id _

/-- The winners after the bid, as positions of the original list: the packing of the
positions sorted by the new scores. -/
theorem winnerPositions_raiseBid :
    winnerPositions (raiseBid submissions i score) =
      (select (accountsAt submissions) ∅ (sortByKeyRev
        (fun j => scoreAt (raiseBid submissions i score)
          (j.cast (length_raiseBid submissions i score)))
        (List.finRange submissions.length))).map
          (Fin.cast (length_raiseBid submissions i score)) := by
  rw [winnerPositions, rankedPositions, ← map_cast_finRange (length_raiseBid submissions i score),
    sortByKeyRev_map, select_map]
  congr 2
  funext j
  exact accountsAt_raiseBid submissions i score j

end RaiseBid

/-! ## Main results -/

/-- The winners are submitted bundles, each submission used at most once, with
pairwise disjoint accounts and in rank order; a submission that does not win shares
an account with a winner ranked before it. -/
theorem selectWinners_spec (submissions : List BundleSubmission) :
    ∃ winners : List (Fin submissions.length),
      selectWinners submissions = .ok (winners.map fun i => submissions[i].bundle) ∧
      winners.Nodup ∧
      winners.Pairwise (fun i j =>
        Disjoint submissions[i].bundle.allAccounts submissions[j].bundle.allAccounts) ∧
      winners.Pairwise (RankedBefore submissions) ∧
      ∀ i, i ∉ winners → ∃ j ∈ winners, RankedBefore submissions j i ∧
        ¬ Disjoint submissions[j].bundle.allAccounts submissions[i].bundle.allAccounts := by
  have hSub := winnerPositions_sublist submissions
  have hRanked := rankedPositions_pairwise submissions
  refine ⟨winnerPositions submissions, selectWinners_eq submissions,
    (rankedPositions_nodup submissions).sublist hSub, select_pairwise _ _,
    hRanked.sublist hSub, ?_⟩
  intro i hi
  exact exists_blocker hRanked (mem_rankedPositions submissions i) hi

/-- The winners' score is within a factor `k` of every choice of submissions with
pairwise disjoint accounts. -/
theorem selectWinners_approx (submissions : List BundleSubmission) (k : ℕ) (hk : 1 ≤ k)
    (hCard : ∀ s ∈ submissions, s.bundle.allAccounts.card ≤ k) :
    selectWinners submissions =
        .ok ((winnerPositions submissions).map fun i => submissions[i].bundle) ∧
      (winnerPositions submissions).Nodup ∧
      ∀ chosen : Finset (Fin submissions.length),
        (∀ i ∈ chosen, ∀ j ∈ chosen, i ≠ j →
          Disjoint submissions[i].bundle.allAccounts submissions[j].bundle.allAccounts) →
        ∑ i ∈ chosen, submissions[i].score.toNat ≤
          k * ((winnerPositions submissions).map fun i => submissions[i].score.toNat).sum := by
  have hNodup := (rankedPositions_nodup submissions).sublist (winnerPositions_sublist submissions)
  refine ⟨selectWinners_eq submissions, hNodup, ?_⟩
  intro chosen hChosen
  have hBound := sum_le_of_packing (accountsAt submissions) (scoreAt submissions) (S := chosen) hk
    ((rankedPositions_pairwise submissions).imp fun h => Ranked.key_le h)
    (fun i _ => hCard _ (List.getElem_mem i.isLt))
    (fun i _ => mem_rankedPositions submissions i) hChosen
  rw [← List.sum_toFinset _ hNodup]
  exact hBound

/-- A winner that raises its bid still wins. -/
theorem selectWinners_monotone (submissions : List BundleSubmission)
    (i : Fin submissions.length) (score : UInt64) (hWins : i ∈ winnerPositions submissions)
    (hHigher : submissions[i].score < score) :
    selectWinners submissions =
        .ok ((winnerPositions submissions).map fun j => submissions[j].bundle) ∧
      selectWinners (raiseBid submissions i score) =
        .ok ((winnerPositions (raiseBid submissions i score)).map
          fun j => (raiseBid submissions i score)[j].bundle) ∧
      i.cast (length_raiseBid submissions i score) ∈
        winnerPositions (raiseBid submissions i score) := by
  refine ⟨selectWinners_eq submissions, selectWinners_eq _, ?_⟩
  have hRaise : scoreAt submissions i ≤
      scoreAt (raiseBid submissions i score) (i.cast (length_raiseBid submissions i score)) := by
    rw [scoreAt_raiseBid_self]
    exact (UInt64.lt_iff_toNat_lt.mp hHigher).le
  obtain ⟨pre, mid, post, hOld, hNew⟩ := sortByKeyRev_raise (scoreAt submissions)
    (fun j => scoreAt (raiseBid submissions i score)
      (j.cast (length_raiseBid submissions i score)))
    (fun _ _ h => h.asymm) (List.pairwise_lt_finRange _) (List.mem_finRange i)
    (fun j hj => scoreAt_raiseBid_of_ne submissions i score hj) hRaise
  rw [winnerPositions, rankedPositions, hOld] at hWins
  rw [winnerPositions_raiseBid, hNew]
  have hNodup := rankedPositions_nodup submissions
  rw [rankedPositions, hOld, List.nodup_append] at hNodup
  apply List.mem_map_of_mem
  apply mem_select_of_earlier _ hWins
  intro hMem
  exact hNodup.2.2 i hMem i List.mem_cons_self rfl

/-- A bundle of one transaction that writes the account `b`. -/
def singleAccountBundle (id : UInt64) (b : UInt8) : Bundle :=
  Bundle.new id [Transaction.new "" [AccountMeta.new (Pubkey.filled b) true] 1 1] 1 ""

/-- Three bids for one account. -/
def threeBids : List BundleSubmission :=
  [⟨singleAccountBundle 0 7, 5⟩, ⟨singleAccountBundle 1 7, 9⟩, ⟨singleAccountBundle 2 7, 9⟩]

/-- With one account a bundle the auction is optimal. -/
theorem selectWinners_approx_threeBids :
    ∑ i ∈ {(⟨1, by decide⟩ : Fin threeBids.length)}, threeBids[i].score.toNat ≤
      1 * ((winnerPositions threeBids).map fun i => threeBids[i].score.toNat).sum :=
  (selectWinners_approx threeBids 1 le_rfl (by decide)).2.2 _ (by decide)

/-- The position of the first of the two bids of 9. -/
def secondBid : Fin threeBids.length := ⟨1, by decide⟩

/-- The second bid wins with 9 against an equal bid, hence also with 11. -/
theorem selectWinners_monotone_threeBids :
    secondBid.cast (length_raiseBid threeBids secondBid 11) ∈
      winnerPositions (raiseBid threeBids secondBid 11) :=
  (selectWinners_monotone threeBids secondBid 11 (by decide) (by decide)).2.2

end Blunder.BlockEngine
