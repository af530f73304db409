import Linera.Core.CrossChain

/-!
# The selection of cross-chain bundles

`select_message_bundles` goes once over the bundles and remembers two positions: after
the last bundle that has been received before, and after the last one that is trusted.
Both are positions after the last element with some property (`EndsAt`), so one step
lemma serves for both.
-/

namespace Linera

/-- The position after the last element with a property, or zero if there is none. -/
structure EndsAt {α : Type} (p : α → Bool) (l : List α) (n : Nat) : Prop where
  le_length : n ≤ l.length
  last : ∀ k, n = k + 1 → ∃ a, l[k]? = some a ∧ p a = true
  after : ∀ a ∈ l.drop n, p a = false

namespace EndsAt

variable {α : Type} {p : α → Bool} {l : List α} {n : Nat}

theorem nil (p : α → Bool) : EndsAt p [] 0 := ⟨Nat.le_refl _, nofun, nofun⟩

/-- One more element. -/
theorem append_one (h : EndsAt p l n) (a : α) :
    EndsAt p (l ++ [a]) (if p a then l.length + 1 else n) := by
  by_cases hp : p a = true
  · rw [if_pos hp]
    refine ⟨by simp, ?_, ?_⟩
    · intro k hk
      refine ⟨a, ?_, hp⟩
      rw [← Nat.succ.inj hk]
      exact List.getElem?_concat_length
    · intro b hb
      rw [List.drop_of_length_le (by simp)] at hb
      cases hb
  · rw [if_neg hp]
    refine ⟨by simpa using Nat.le_succ_of_le h.le_length, ?_, ?_⟩
    · intro k hk
      obtain ⟨b, hb, hpb⟩ := h.last k hk
      exact ⟨b, by rw [List.getElem?_append_left (List.getElem?_eq_some_iff.mp hb).1, hb], hpb⟩
    · intro b hb
      rw [List.drop_append_of_le_length h.le_length, List.mem_append, List.mem_singleton] at hb
      obtain hb | rfl := hb
      · exact h.after b hb
      · simpa using hp

/-- The property holds before the position if it holds of whatever comes before an element with
it. -/
theorem before (h : EndsAt p l n) {R : α → α → Prop} (hl : l.Pairwise R)
    (hR : ∀ a b, R a b → p b = true → p a = true) : ∀ a ∈ l.take n, p a = true := by
  intro a ha
  obtain ⟨i, hi, rfl⟩ := List.mem_take_iff_getElem.mp ha
  have hin : i < n := by omega
  obtain ⟨b, hb, hpb⟩ := h.last (n - 1) (by omega)
  obtain ⟨hlast, rfl⟩ := List.getElem?_eq_some_iff.mp hb
  obtain hlt | heq := Nat.lt_or_eq_of_le (Nat.le_sub_one_of_lt hin)
  · exact hR _ _ (List.pairwise_iff_getElem.mp hl i (n - 1) (by omega) hlast hlt) hpb
  · simpa only [heq] using hpb

end EndsAt

namespace CrossChainUpdateHelper

variable (helper : CrossChainUpdateHelper) (nextHeightToReceive : Nat)
  (lastAnticipatedBlockHeight : Option Nat)

/-- The heights do not decrease. -/
def HeightsOrdered (bundles : List (Nat × MessageBundle)) : Prop :=
  bundles.Pairwise fun e e' => e.2.height ≤ e'.2.height

/-- Whether a block has been received already. -/
def isRepeated (e : Nat × MessageBundle) : Bool := e.2.height < nextHeightToReceive

theorem heightsOrdered_concat {done : List (Nat × MessageBundle)} {e : Nat × MessageBundle}
    (hdone : HeightsOrdered done) : HeightsOrdered (done ++ [e]) ↔
      (done.getLast?.map fun e => e.2.height).all (· ≤ e.2.height) = true := by
  unfold HeightsOrdered at *
  rw [List.pairwise_append]
  simp only [hdone, List.pairwise_singleton, List.mem_singleton, forall_eq, true_and]
  obtain rfl | ⟨init, last, rfl⟩ := List.eq_nil_or_concat' done
  · simp
  · rw [List.pairwise_append] at hdone
    simp only [List.getLast?_concat, Option.map_some, Option.all_some, decide_eq_true_eq,
      List.mem_append, List.mem_singleton]
    constructor
    · exact fun h => h last (.inr rfl)
    · rintro h a (ha | rfl)
      · exact (hdone.2.2 a ha last (List.mem_singleton.mpr rfl)).trans h
      · exact h

/-- The loop, after some bundles: it fails exactly if the heights decrease, and otherwise returns
the two positions. -/
theorem selectLoop_spec {done rest : List (Nat × MessageBundle)} {skippedLen trustedLen : Nat}
    (hdone : HeightsOrdered done) (hskipped : EndsAt (isRepeated nextHeightToReceive) done skippedLen)
    (htrusted : EndsAt (helper.isTrusted lastAnticipatedBlockHeight) done trustedLen) :
    (HeightsOrdered (done ++ rest) ∧ ∃ skipped trusted,
      helper.selectLoop nextHeightToReceive lastAnticipatedBlockHeight done.length
        (done.getLast?.map fun e => e.2.height) skippedLen trustedLen rest = .ok (skipped, trusted) ∧
      EndsAt (isRepeated nextHeightToReceive) (done ++ rest) skipped ∧
      EndsAt (helper.isTrusted lastAnticipatedBlockHeight) (done ++ rest) trusted) ∨
    (¬HeightsOrdered (done ++ rest) ∧
      helper.selectLoop nextHeightToReceive lastAnticipatedBlockHeight done.length
        (done.getLast?.map fun e => e.2.height) skippedLen trustedLen rest =
        .error .invalidCrossChainRequest) := by
  induction rest generalizing done skippedLen trustedLen with
  | nil =>
    rw [List.append_nil]
    exact .inl ⟨hdone, skippedLen, trustedLen, rfl, hskipped, htrusted⟩
  | cons e rest ih =>
    unfold selectLoop
    by_cases hall : (done.getLast?.map fun e => e.2.height).all (· ≤ e.2.height) = true
    · -- the next bundle belongs to what has been looked at
      have hnext := ih ((heightsOrdered_concat hdone).mpr hall) (hskipped.append_one e)
        (htrusted.append_one e)
      rw [List.append_assoc, List.singleton_append, List.length_append, List.length_singleton,
        List.getLast?_concat, Option.map_some] at hnext
      rw [ensure, if_pos hall]
      simpa only [isRepeated, decide_eq_true_eq, Except.ok_bind] using hnext
    · refine .inr ⟨?_, ?_⟩
      · intro hordered
        refine hall ((heightsOrdered_concat hdone).mp ?_)
        rw [← List.singleton_append, ← List.append_assoc] at hordered
        exact (List.pairwise_append.mp hordered).1
      · rw [ensure, if_neg hall]
        rfl

/-- The bundles between the two positions, if there are any. -/
theorem exists_selected {bundles : List (Nat × MessageBundle)} {skipped trusted : Nat}
    (hskipped : EndsAt (isRepeated nextHeightToReceive) bundles skipped)
    (htrusted : EndsAt (helper.isTrusted lastAnticipatedBlockHeight) bundles trusted)
    (hlt : skipped < trusted) :
    ∃ first middle last, (bundles.take trusted).drop skipped = first :: middle ∧
      nextHeightToReceive ≤ first.2.height ∧ (first :: middle).getLast? = some last ∧
      helper.isTrusted lastAnticipatedBlockHeight last ∧
      bundles = bundles.take skipped ++ (first :: middle) ++ bundles.drop trusted := by
  have hlen := htrusted.le_length
  obtain ⟨last, hlast, hlastTrusted⟩ := htrusted.last (trusted - 1) (by omega)
  have hparts : bundles =
      bundles.take skipped ++ (bundles.take trusted).drop skipped ++ bundles.drop trusted := by
    conv_lhs => rw [← List.take_append_drop trusted bundles]
    rw [← List.take_append_drop skipped (bundles.take trusted), List.take_take,
      Nat.min_eq_left (Nat.le_of_lt hlt), List.drop_append_of_le_length (by simp; omega)]
    simp
  have hgetLast : ((bundles.take trusted).drop skipped).getLast? = some last := by
    rw [List.getLast?_drop, if_neg (by simp; omega), List.getLast?_take, if_neg (by omega), hlast]
    rfl
  cases hselected : (bundles.take trusted).drop skipped with
  | nil =>
    rw [hselected] at hgetLast
    cases hgetLast
  | cons first middle =>
    rw [hselected] at hgetLast hparts
    refine ⟨first, middle, last, rfl, ?_, hgetLast, hlastTrusted, hparts⟩
    have hmem : first ∈ bundles.drop skipped :=
      List.mem_of_mem_take (i := trusted - skipped) (by
        rw [← List.drop_take, hselected]
        exact List.mem_cons_self)
    simpa [isRepeated] using hskipped.after first hmem

/-- The first position comes before the second one exactly if a trusted bundle is new. -/
theorem skipped_lt_trusted_iff {bundles : List (Nat × MessageBundle)} {skipped trusted : Nat}
    (hordered : HeightsOrdered bundles)
    (hskipped : EndsAt (isRepeated nextHeightToReceive) bundles skipped)
    (htrusted : EndsAt (helper.isTrusted lastAnticipatedBlockHeight) bundles trusted) :
    skipped < trusted ↔ ∃ e ∈ bundles, helper.isTrusted lastAnticipatedBlockHeight e ∧
      nextHeightToReceive ≤ e.2.height := by
  constructor
  · intro hlt
    obtain ⟨first, middle, last, -, hfirst, hlast, hlastTrusted, hparts⟩ :=
      helper.exists_selected nextHeightToReceive lastAnticipatedBlockHeight hskipped htrusted hlt
    have hmem : last ∈ bundles := by
      rw [hparts]
      simp only [List.mem_append]
      exact .inl (.inr (List.mem_of_getLast? hlast))
    refine ⟨last, hmem, hlastTrusted, hfirst.trans ?_⟩
    -- the last trusted bundle is not below the first new one
    rw [HeightsOrdered, hparts, List.append_assoc, List.pairwise_append,
      List.pairwise_append] at hordered
    obtain hfirstLast | hlastMem := List.mem_cons.mp (List.mem_of_getLast? hlast)
    · rw [hfirstLast]
    · exact (List.pairwise_cons.mp hordered.2.1.1).1 last hlastMem
  · -- a bundle that is trusted and new lies between the positions
    rintro ⟨e, he, hetrusted, henew⟩
    by_contra hge
    have hbefore := hskipped.before hordered fun a b hab hb => by
      simp only [isRepeated, decide_eq_true_eq] at hb ⊢
      omega
    rw [← List.take_append_drop skipped bundles, List.mem_append] at he
    obtain he | he := he
    · have := hbefore e he
      simp only [isRepeated, decide_eq_true_eq] at this
      omega
    · have hdrop : e ∈ bundles.drop trusted := by
        rw [show skipped = trusted + (skipped - trusted) by omega, ← List.drop_drop] at he
        exact List.mem_of_mem_drop he
      rw [htrusted.after e hdrop] at hetrusted
      cases hetrusted

variable (bundles : List (Nat × MessageBundle))

/-- The loop over all bundles, and what is then selected. -/
theorem selectMessageBundles_spec : (HeightsOrdered bundles ∧ ∃ skipped trusted,
      helper.selectLoop nextHeightToReceive lastAnticipatedBlockHeight 0 none 0 0 bundles =
        .ok (skipped, trusted) ∧
      EndsAt (isRepeated nextHeightToReceive) bundles skipped ∧
      EndsAt (helper.isTrusted lastAnticipatedBlockHeight) bundles trusted ∧
      helper.selectMessageBundles nextHeightToReceive lastAnticipatedBlockHeight bundles =
        .ok (if skipped < trusted then ((bundles.take trusted).drop skipped).map Prod.snd
          else [])) ∨
    (¬HeightsOrdered bundles ∧
      helper.selectLoop nextHeightToReceive lastAnticipatedBlockHeight 0 none 0 0 bundles =
        .error .invalidCrossChainRequest ∧
      helper.selectMessageBundles nextHeightToReceive lastAnticipatedBlockHeight bundles =
        .error .invalidCrossChainRequest) := by
  have hspec := @selectLoop_spec helper nextHeightToReceive lastAnticipatedBlockHeight [] bundles 0 0
    .nil (.nil _) (.nil _)
  rw [List.nil_append] at hspec
  unfold selectMessageBundles
  obtain ⟨hordered, skipped, trusted, hloop, hskipped, htrusted⟩ | ⟨hnot, hloop⟩ := hspec
  · refine .inl ⟨hordered, skipped, trusted, hloop, hskipped, htrusted, ?_⟩
    rw [show helper.selectLoop _ _ 0 none 0 0 bundles = _ from hloop]
    rfl
  · refine .inr ⟨hnot, hloop, ?_⟩
    rw [show helper.selectLoop _ _ 0 none 0 0 bundles = _ from hloop]
    rfl

theorem selectMessageBundles_eq_nil_iff :
    (helper.selectMessageBundles nextHeightToReceive lastAnticipatedBlockHeight bundles).Ensures
      fun selected => (selected = [] ↔ ∀ e ∈ bundles,
        helper.isTrusted lastAnticipatedBlockHeight e → e.2.height < nextHeightToReceive) := by
  obtain ⟨hordered, skipped, trusted, -, hskipped, htrusted, hselect⟩ | ⟨-, -, hselect⟩ :=
    helper.selectMessageBundles_spec nextHeightToReceive lastAnticipatedBlockHeight bundles
  · rw [hselect]
    have hiff := helper.skipped_lt_trusted_iff nextHeightToReceive lastAnticipatedBlockHeight
      hordered hskipped htrusted
    refine .ok ?_
    have hall : (∀ e ∈ bundles, helper.isTrusted lastAnticipatedBlockHeight e →
        e.2.height < nextHeightToReceive) ↔ ¬skipped < trusted := by
      rw [hiff]
      push Not
      exact Iff.rfl
    rw [hall]
    have hlength := htrusted.le_length
    split
    · next hlt =>
      have hskippedLength : skipped < bundles.length := by omega
      simp [hlt, hskippedLength]
    · next hlt => simp [hlt]
  · rw [hselect]
    exact .error

/-- **What is selected.** The selection fails exactly if the heights decrease somewhere. The two
positions are inside of the list. If a trusted bundle is new, then the result are the bundles from
the first new one to the last trusted one; otherwise it is empty. -/
theorem selects_trusted_range (bundles : List (Nat × MessageBundle)) :
    ((∃ error, helper.selectMessageBundles nextHeightToReceive lastAnticipatedBlockHeight bundles =
      .error error) ↔ ¬HeightsOrdered bundles) ∧
    (∀ skippedLen trustedLen, helper.selectLoop nextHeightToReceive lastAnticipatedBlockHeight 0 none
      0 0 bundles = .ok (skippedLen, trustedLen) →
      skippedLen ≤ bundles.length ∧ trustedLen ≤ bundles.length) ∧
    (HeightsOrdered bundles →
      (∃ e ∈ bundles, helper.isTrusted lastAnticipatedBlockHeight e ∧
        nextHeightToReceive ≤ e.2.height) →
      ∃ before first middle last after, bundles = before ++ (first :: middle) ++ after ∧
        (∀ e ∈ before, e.2.height < nextHeightToReceive) ∧
        nextHeightToReceive ≤ first.2.height ∧ (first :: middle).getLast? = some last ∧
        helper.isTrusted lastAnticipatedBlockHeight last ∧
        (∀ e ∈ after, ¬helper.isTrusted lastAnticipatedBlockHeight e) ∧
        helper.selectMessageBundles nextHeightToReceive lastAnticipatedBlockHeight bundles =
          .ok ((first :: middle).map Prod.snd)) ∧
    (HeightsOrdered bundles →
      (∀ e ∈ bundles, helper.isTrusted lastAnticipatedBlockHeight e →
        e.2.height < nextHeightToReceive) →
      helper.selectMessageBundles nextHeightToReceive lastAnticipatedBlockHeight bundles =
        .ok []) := by
  obtain ⟨hordered, skipped, trusted, hloop, hskipped, htrusted, hselect⟩ |
    ⟨hnot, hloop, hselect⟩ :=
    helper.selectMessageBundles_spec nextHeightToReceive lastAnticipatedBlockHeight bundles
  · have hiff := helper.skipped_lt_trusted_iff nextHeightToReceive lastAnticipatedBlockHeight
      hordered hskipped htrusted
    refine ⟨⟨fun ⟨_, herror⟩ => ?_, fun hnot => absurd hordered hnot⟩, ?_, fun _ hexists => ?_,
      fun _ hnone => ?_⟩
    · cases hselect.symm.trans herror
    · intro s t hst
      cases hloop.symm.trans hst
      exact ⟨hskipped.le_length, htrusted.le_length⟩
    · have hlt := hiff.mpr hexists
      obtain ⟨first, middle, last, hselected, hfirst, hlast, hlastTrusted, hparts⟩ :=
        helper.exists_selected nextHeightToReceive lastAnticipatedBlockHeight hskipped htrusted hlt
      refine ⟨bundles.take skipped, first, middle, last, bundles.drop trusted, hparts, ?_, hfirst,
        hlast, hlastTrusted, ?_, ?_⟩
      · intro e he
        have hrepeated := hskipped.before hordered (fun a b hab hb => by
          simp only [isRepeated, decide_eq_true_eq] at hb ⊢
          omega) e he
        simpa [isRepeated] using hrepeated
      · intro e he
        simp [htrusted.after e he]
      · rw [hselect, if_pos hlt, hselected]
    · rw [hselect, if_neg]
      intro hlt
      obtain ⟨e, he, hetrusted, henew⟩ := hiff.mp hlt
      exact absurd (hnone e he hetrusted) (by omega)
  · refine ⟨⟨fun _ => hnot, fun _ => ⟨_, hselect⟩⟩, ?_, fun hordered => absurd hordered hnot,
      fun hordered => absurd hordered hnot⟩
    intro s t hst
    cases hloop.symm.trans hst

end CrossChainUpdateHelper

end Linera
