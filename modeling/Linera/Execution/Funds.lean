import Linera.Execution.Requests

/-!
# The funds of a chain

What operations, messages and fees do to the balances of a chain, one account at
a time: an account is debited (`Debited`), credited (`Credited`), or charged for
fees (`Charged`), and all the others stay as they are.
-/

namespace Linera

namespace Funds

/-- The balance of the chain itself, or of an account on it. -/
def balanceOf (f : Funds) : Option AccountOwner → Nat
  | none => f.balance
  | some owner => (f.balances.get owner).getD 0

/-- All the tokens on the chain. -/
def total (f : Funds) : Nat := f.balance + f.balances.sumBy fun _ balance => balance

/-- An account has spent an amount. -/
structure Debited (account : Option AccountOwner) (amount : Nat) (f f' : Funds) : Prop where
  ownership : f'.ownership = f.ownership
  total : f'.total + amount = f.total
  source : f'.balanceOf account + amount = f.balanceOf account
  others : ∀ other, other ≠ account → f'.balanceOf other = f.balanceOf other

/-- An account has received an amount, as far as it can hold it. -/
structure Credited (account : Option AccountOwner) (amount : Nat) (f f' : Funds) : Prop where
  ownership : f'.ownership = f.ownership
  total : f'.total ≤ f.total + amount
  target : f'.balanceOf account = Amount.saturatingAdd (f.balanceOf account) amount
  others : ∀ other, other ≠ account → f'.balanceOf other = f.balanceOf other

/-- The chain and the account of `payer` have paid something. -/
structure Charged (payer : Option Owner) (f f' : Funds) : Prop where
  ownership : f'.ownership = f.ownership
  le : ∀ account, f'.balanceOf account ≤ f.balanceOf account
  others : ∀ owner, (∀ o ∈ payer, owner ≠ .user o) →
    f'.balanceOf (some owner) = f.balanceOf (some owner)

theorem Charged.refl (payer : Option Owner) (f : Funds) : Charged payer f f :=
  ⟨rfl, fun _ => le_rfl, fun _ _ => rfl⟩

theorem Charged.trans {payer : Option Owner} {f f' f'' : Funds} (h : Charged payer f f')
    (h' : Charged payer f' f'') : Charged payer f f'' :=
  ⟨h'.ownership.trans h.ownership, fun account => (h'.le account).trans (h.le account),
    fun owner ho => (h'.others owner ho).trans (h.others owner ho)⟩

variable (f : Funds)

variable (owner : AccountOwner)

theorem balanceOf_insert (balance : Nat) (other : Option AccountOwner) :
    ({ f with balances := f.balances.insert owner balance } : Funds).balanceOf other =
      if other = some owner then balance else f.balanceOf other := by
  cases other with
  | none => simp [balanceOf]
  | some other =>
    by_cases h : other = owner
    · simp [balanceOf, BTreeMap.get_insert, h]
    · simp [balanceOf, BTreeMap.get_insert, h]

theorem balanceOf_remove (other : Option AccountOwner) :
    ({ f with balances := f.balances.remove owner } : Funds).balanceOf other =
      if other = some owner then 0 else f.balanceOf other := by
  cases other with
  | none => simp [balanceOf]
  | some other =>
    by_cases h : other = owner
    · simp [balanceOf, BTreeMap.get_remove, h]
    · simp [balanceOf, BTreeMap.get_remove, h]

theorem elim_get_eq_balanceOf :
    (f.balances.get owner).elim 0 (fun balance => balance) = f.balanceOf (some owner) := by
  cases hget : f.balances.get owner <;> simp [balanceOf, hget]

theorem total_insert (balance : Nat) :
    ({ f with balances := f.balances.insert owner balance } : Funds).total +
      f.balanceOf (some owner) = f.total + balance := by
  have h := f.balances.sumBy_insert (fun _ balance => balance) owner balance
  rw [f.elim_get_eq_balanceOf] at h
  simp only [total]
  omega

theorem total_remove :
    ({ f with balances := f.balances.remove owner } : Funds).total + f.balanceOf (some owner) =
      f.total := by
  have h := f.balances.sumBy_remove (fun _ balance => balance) owner
  rw [f.elim_get_eq_balanceOf] at h
  simp only [total]
  omega

theorem debited_insert {f : Funds} {owner : AccountOwner} {balance amount : Nat}
    (h : balance + amount = f.balanceOf (some owner)) :
    Debited (some owner) amount f { f with balances := f.balances.insert owner balance } := by
  have htotal := f.total_insert owner balance
  refine ⟨rfl, by omega, ?_, fun other hother => ?_⟩
  · rw [balanceOf_insert, if_pos rfl, h]
  · rw [balanceOf_insert, if_neg hother]

variable {amount : Nat}

theorem debited_remove {f : Funds} {owner : AccountOwner} (h : amount = f.balanceOf (some owner)) :
    Debited (some owner) amount f { f with balances := f.balances.remove owner } := by
  have htotal := f.total_remove owner
  refine ⟨rfl, by omega, ?_, fun other hother => ?_⟩
  · rw [balanceOf_remove, if_pos rfl, zero_add, h]
  · rw [balanceOf_remove, if_neg hother]

theorem debited_balance {f : Funds} {balance amount : Nat} (h : balance + amount = f.balance) :
    Debited none amount f { f with balance } := by
  refine ⟨rfl, ?_, h, fun other hother => ?_⟩
  · simp only [total]
    omega
  · cases other with
    | none => exact absurd rfl hother
    | some owner => rfl

theorem Debited.le {account : Option AccountOwner} {f f' : Funds} (h : Debited account amount f f')
    (other : Option AccountOwner) : f'.balanceOf other ≤ f.balanceOf other := by
  by_cases hother : other = account
  · subst hother
    have hsource := h.source
    omega
  · exact (h.others other hother).le

theorem Debited.charged_chain {f f' : Funds} (h : Debited none amount f f') (payer : Option Owner) :
    Charged payer f f' :=
  ⟨h.ownership, h.le, fun _ _ => h.others _ nofun⟩

theorem Debited.charged_user {owner : Owner} {f f' : Funds}
    (h : Debited (some (.user owner)) amount f f') : Charged (some owner) f f' := by
  refine ⟨h.ownership, h.le, fun other hother => h.others _ fun heq => ?_⟩
  exact hother owner rfl (Option.some.inj heq)

/-- Who may spend the funds of an account: its user, its application, or an owner of the chain. -/
def MaySpend (f : Funds) (signer : Option Owner) (applicationId : Option UserApplicationId) :
    Option AccountOwner → Prop
  | some (.user owner) => signer = some owner
  | some (.application application) => applicationId = some application
  | none => ∃ owner, signer = some owner ∧ (f.ownership.verifyOwner owner).isSome

end Funds

namespace SystemExecutionStateView

variable (s : SystemExecutionStateView)

theorem debit_ensures (account : Option AccountOwner) (amount : Nat) :
    (s.debit account amount).Ensures fun s' => Funds.Debited account amount s.funds s'.funds := by
  intro s' h
  cases account with
  | none =>
    simp only [debit] at h
    split at h
    · cases h
    · next balance hsub =>
      cases h
      exact Funds.debited_balance (Amount.trySub_eq_ok.mp hsub)
  | some owner =>
    simp only [debit] at h
    split at h
    · cases h
    · next balance hget =>
      have hbalance : s.funds.balanceOf (some owner) = balance := by
        simp [Funds.balanceOf, funds, hget]
      split at h
      · cases h
      · next hsub =>
        cases h
        have hamount := Amount.trySub_eq_ok.mp hsub
        exact Funds.debited_remove (f := s.funds) (by rw [hbalance]; omega)
      · next left _ hsub =>
        cases h
        exact Funds.debited_insert (f := s.funds) (by rw [hbalance]; exact Amount.trySub_eq_ok.mp hsub)

variable (signer : Option Owner)

variable (applicationId : Option UserApplicationId)

theorem checkTransfer_ensures (source : Option AccountOwner) :
    (s.checkTransfer signer applicationId source).Ensures fun _ =>
      s.funds.MaySpend signer applicationId source := by
  intro u h
  unfold checkTransfer at h
  split at h
  · exact congrArg some (Except.ensure_eq_ok.mp h)
  · exact congrArg some (Except.ensure_eq_ok.mp h).symm
  · exact ⟨_, rfl, Except.ensure_eq_ok.mp h⟩
  · cases h

/-- A transfer: the source may be spent, and the recipient is sent what is debited. -/
theorem transfer_ensures (source : Option AccountOwner) (recipient : Recipient) (amount : Nat) :
    (s.transfer signer applicationId source recipient amount).Ensures fun p =>
      s.funds.MaySpend signer applicationId source ∧ 0 < amount ∧
        Funds.Debited source amount s.funds p.1.funds ∧
        p.2 = creditMessage source amount recipient := by
  refine .bind (s.checkTransfer_ensures signer applicationId source) fun _ hcheck => ?_
  refine .guard fun hamount => ?_
  refine .bind (s.debit_ensures source amount) fun s' hdebit => ?_
  exact .ok ⟨hcheck, hamount, hdebit, rfl⟩

/-- Who may claim from an account on another chain. -/
theorem claim_ensures (source : AccountOwner) (targetId : ChainId) (recipient : Recipient)
    (amount : Nat) (f : Funds) :
    (claim signer applicationId source targetId recipient amount).Ensures fun message =>
      f.MaySpend signer applicationId (some source) ∧
        message = ⟨.recipient targetId, true, 0, .simple, .withdraw source amount recipient⟩ := by
  unfold claim
  cases source with
  | user owner => exact .guard fun hsigner => .guard fun _ => .ok ⟨hsigner, rfl⟩
  | application owner => exact .guard fun happ => .guard fun _ => .ok ⟨happ, rfl⟩

theorem openChain_ensures (hashing : Hashing) (config : OpenChainConfig) (id : MessageId) :
    (s.openChain hashing config id).Ensures fun p =>
      Funds.Debited none config.balance s.funds p.1.funds ∧
        p.2 = [plainMessage (.recipient (hashing.chainId (.child id))) .protected
            (.openChain config),
          plainMessage (.recipient config.adminId) .protected
            (.subscribe (hashing.chainId (.child id)) (adminSubscription config.adminId))] := by
  refine .guard fun _ => .guard fun _ => .guard fun _ => ?_
  refine .bind (s.debit_ensures none config.balance) fun s' hdebit => ?_
  exact .ok ⟨hdebit, rfl⟩

end SystemExecutionStateView

/-! ## Fees -/

namespace Sources

/-- At least `fees` were taken from the sources, and nothing was added to any of them. -/
structure Paid (fees : Nat) (sources sources' : List Nat) : Prop where
  le : List.Forall₂ (· ≤ ·) sources' sources
  sum : sources'.sum + fees ≤ sources.sum

theorem Paid.refl (sources : List Nat) : Paid 0 sources sources :=
  ⟨List.forall₂_same.mpr fun _ _ => le_rfl, le_rfl⟩

theorem forall₂_le_trans {l l' l'' : List Nat} (h : List.Forall₂ (· ≤ ·) l l')
    (h' : List.Forall₂ (· ≤ ·) l' l'') : List.Forall₂ (· ≤ ·) l l'' := by
  induction h generalizing l'' with
  | nil => exact h'
  | cons hle _ ih =>
    cases h' with
    | cons hle' h' => exact .cons (hle.trans hle') (ih h')

theorem Paid.trans {fees fees' : Nat} {sources sources' sources'' : List Nat}
    (h : Paid fees sources sources') (h' : Paid fees' sources' sources'') :
    Paid (fees + fees') sources sources'' := by
  refine ⟨forall₂_le_trans h'.le h.le, ?_⟩
  have hsum := h.sum
  have hsum' := h'.sum
  omega

theorem Paid.weaken {fees : Nat} {sources sources' : List Nat} (h : Paid fees sources sources') :
    Paid 0 sources sources' :=
  ⟨h.le, (Nat.le_add_right _ _).trans h.sum⟩

theorem trySubAssign_ensures (sources : List Nat) (fees : Nat) :
    (trySubAssign sources fees).Ensures (Paid fees sources) := by
  induction sources generalizing fees with
  | nil =>
    unfold trySubAssign
    split
    · exact .error
    · exact .ok ⟨.nil, by simp; omega⟩
  | cons source sources ih =>
    unfold trySubAssign
    split
    · next hle =>
      refine .ok ⟨.cons (Nat.sub_le _ _) (Paid.refl sources).le, ?_⟩
      simp only [List.sum_cons]
      omega
    · next hlt =>
      split
      · next sources' heq =>
        obtain ⟨hle, hsum⟩ := ih (fees - source) _ heq
        refine .ok ⟨.cons (Nat.zero_le _) hle, ?_⟩
        simp only [List.sum_cons]
        omega
      · exact .error

end Sources

namespace ResourceController

/-- At least `fees` were charged to the account. -/
def Pays (fees : Nat) (c c' : ResourceController Sources) : Prop :=
  Sources.Paid fees c.account.sources c'.account.sources

variable (c : ResourceController Sources)

theorem updateBalance_pays (fees : Nat) : (c.updateBalance fees).Ensures (c.Pays fees) := by
  intro c' h
  simp only [updateBalance, BalanceHolder.trySubAssign] at h
  cases hsub : Sources.trySubAssign c.account.sources fees with
  | error e =>
    rw [hsub] at h
    cases h
  | ok sources =>
    rw [hsub] at h
    cases h
    exact Sources.trySubAssign_ensures _ _ _ hsub

/-- Whatever has been counted, the fees are taken from the same account. -/
theorem updateBalance_pays_any (tracker : ResourceTracker) (fees : Nat) :
    (updateBalance { c with tracker } fees).Ensures (c.Pays 0) :=
  (updateBalance_pays { c with tracker } fees).mono fun _ h => h.weaken

theorem trackOperation_pays (operation : Operation) :
    (c.trackOperation operation).Ensures (c.Pays 0) := by
  refine .bind_any fun _ => .bind (c.updateBalance_pays_any _ _) fun c₁ h₁ => ?_
  cases operation with
  | system => exact .ok h₁
  | user =>
    refine .bind_any fun _ => .bind_any fun _ => ?_
    exact (c₁.updateBalance_pays_any _ _).mono fun c₂ h₂ => h₁.trans h₂

theorem trackMessage_pays (message : Message) : (c.trackMessage message).Ensures (c.Pays 0) := by
  refine .bind_any fun _ => .bind (c.updateBalance_pays_any _ _) fun c₁ h₁ => ?_
  cases message with
  | system => exact .ok h₁
  | user =>
    refine .bind_any fun _ => .bind_any fun _ => ?_
    exact (c₁.updateBalance_pays_any _ _).mono fun c₂ h₂ => h₁.trans h₂

theorem trackBlock_pays : c.trackBlock.Ensures (c.Pays 0) :=
  .bind_any fun _ => c.updateBalance_pays_any _ _

theorem mergeBalance_pays {initial other : Nat} (h : other ≤ initial) :
    (c.mergeBalance initial other).Ensures (c.Pays (initial - other)) := by
  unfold mergeBalance
  rw [if_pos h]
  exact c.updateBalance_pays _

end ResourceController

namespace SystemExecutionStateView

/-- Puts back the first source: the grant, or else the balance of the chain. -/
def putFirst (s : SystemExecutionStateView) (first : Nat) :
    Option Nat → SystemExecutionStateView × Option Nat
  | some _ => (s, some first)
  | none => ({ s with balance := first }, none)

variable (s : SystemExecutionStateView)

theorem putFirst_isSome (first : Nat) (grant : Option Nat) :
    (s.putFirst first grant).2.isSome = grant.isSome := by
  cases grant <;> rfl

theorem putFirst_charged (payer : Option Owner) (grant : Option Nat) {first : Nat}
    (h : first ≤ grant.getD s.balance) :
    Funds.Charged payer s.funds (s.putFirst first grant).1.funds ∧
      (s.putFirst first grant).1.funds.total + (s.putFirst first grant).2.getD 0 +
        grant.getD s.balance = s.funds.total + grant.getD 0 + first := by
  cases grant with
  | none =>
    have hdebit := Funds.debited_balance (f := s.funds) (Nat.add_sub_cancel' h)
    have htotal : (s.putFirst first none).1.funds.total + (s.balance - first) = s.funds.total :=
      hdebit.total
    refine ⟨hdebit.charged_chain payer, ?_⟩
    simp only [Option.getD_none, putFirst] at h htotal ⊢
    omega
  | some grant =>
    refine ⟨.refl payer _, ?_⟩
    simp only [Option.getD_some, putFirst]
    omega

/-- What it means for the chain that its funding sources have paid. -/
theorem putSources_charged (account : Option Owner) (grant : Option Nat) {fees : Nat}
    {sources : Sources} (h : Sources.Paid fees (s.sources account grant).sources sources.sources) :
    Funds.Charged account s.funds (s.putSources account grant sources).1.funds ∧
      (s.putSources account grant sources).1.funds.total +
        (s.putSources account grant sources).2.getD 0 + fees ≤
        s.funds.total + grant.getD 0 ∧
      (s.putSources account grant sources).2.isSome = grant.isSome := by
  obtain ⟨sources⟩ := sources
  obtain ⟨hle, hsum⟩ := h
  obtain ⟨first, rest, hfirst, hrest, rfl⟩ := List.forall₂_cons_right_iff.mp hle
  simp only [SystemExecutionStateView.sources] at hrest hsum
  cases hsource : account.bind fun owner => s.balances.get (.user owner) with
  | none =>
    rw [hsource] at hrest hsum
    obtain rfl := List.forall₂_nil_right_iff.mp hrest
    obtain ⟨hcharged, htotal⟩ := s.putFirst_charged account grant hfirst
    have hput : s.putSources account grant ⟨[first]⟩ = s.putFirst first grant := by
      cases account <;> cases grant <;> rfl
    rw [hput]
    refine ⟨hcharged, ?_, s.putFirst_isSome first grant⟩
    simp only [Option.toList_none, List.sum_cons, List.sum_nil] at hsum
    omega
  | some balance =>
    rw [hsource] at hrest hsum
    obtain ⟨owner, rfl, hget⟩ := Option.bind_eq_some_iff.mp hsource
    obtain ⟨second, _, hsecond, hnil, rfl⟩ := List.forall₂_cons_right_iff.mp hrest
    obtain rfl := List.forall₂_nil_right_iff.mp hnil
    have hbalance : s.funds.balanceOf (some (.user owner)) = balance := by
      simp [Funds.balanceOf, funds, hget]
    have hdebit : Funds.Debited (some (.user owner)) (balance - second) s.funds
        { s.funds with balances := s.funds.balances.insert (.user owner) second } :=
      Funds.debited_insert ((Nat.add_sub_cancel' hsecond).trans hbalance.symm)
    let s₁ := { s with balances := s.balances.insert (.user owner) second }
    obtain ⟨hcharged, htotal⟩ := s₁.putFirst_charged (some owner) grant hfirst
    have hput : s.putSources (some owner) grant ⟨[first, second]⟩ = s₁.putFirst first grant := by
      cases grant <;> rfl
    rw [hput]
    refine ⟨hdebit.charged_user.trans hcharged, ?_, s₁.putFirst_isSome first grant⟩
    have htotal₁ : s₁.funds.total + (balance - second) = s.funds.total := hdebit.total
    have hgrant : grant.getD s₁.balance = grant.getD s.balance := rfl
    simp only [Option.toList_some, List.sum_cons, List.sum_nil] at hsum
    omega

end SystemExecutionStateView

namespace ResourceController

variable {f : ResourceController Sources → Except ExecutionError (ResourceController Sources)}

variable (c : ResourceController (Option Owner))

/-- The rule for accounting functions. -/
theorem withStateAndGrant_ensures (s : SystemExecutionStateView) (grant : Option Nat) {fees : Nat}
    (hf : ∀ c, (f c).Ensures (c.Pays fees)) :
    (c.withStateAndGrant s grant f).Ensures fun p => p.1.account = c.account ∧
      Funds.Charged c.account s.funds p.2.1.funds ∧
      p.2.1.funds.total + p.2.2.getD 0 + fees ≤ s.funds.total + grant.getD 0 ∧
      p.2.2.isSome = grant.isSome := by
  refine .bind (hf _) fun c' hpays => .ok ⟨rfl, ?_⟩
  exact s.putSources_charged c.account grant hpays

theorem withState_ensures (s : SystemExecutionStateView) (hf : ∀ c, (f c).Ensures (c.Pays 0)) :
    (c.withState s f).Ensures fun p => p.1.account = c.account ∧
      Funds.Charged c.account s.funds p.2.funds ∧ p.2.funds.total ≤ s.funds.total := by
  refine .bind (c.withStateAndGrant_ensures s none hf) ?_
  rintro ⟨c', s', grant'⟩ ⟨haccount, hcharged, htotal, -⟩
  refine .ok ⟨haccount, hcharged, ?_⟩
  exact (Nat.le_add_right _ _).trans htotal

end ResourceController

end Linera
