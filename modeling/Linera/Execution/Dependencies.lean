import Linera.Execution.Applications
import Linera.Lib.DepthFirst

/-!
# The dependencies of applications

An application is registered after the applications it requires, on the chain that created it
and on every chain that is told about it.

* `findDependenciesLoop_sorts` — the search ends, and lists each required application once, after
  the ones it requires itself.
* `dependencies_registrable` — so they can be registered in this order on any other chain.
-/

namespace Linera

open Relation (ReflTransGen)

namespace ApplicationRegistryView

/-- The registries that come from registrations, in which no ID is registered again with another
description. -/
inductive Built : ApplicationRegistryView → Prop
  | empty : Built ⟨.empty⟩
  | register {r r' : ApplicationRegistryView} {application : UserApplicationDescription} :
      Built r →
      (∀ known, r.knownApplications.get application.applicationId = some known →
        known = application) →
      r.registerApplication application = .ok r' → Built r'
  | registerNew {r r' : ApplicationRegistryView} {applicationId : UserApplicationId}
      {parameters : Bytes} {requiredApplicationIds : List UserApplicationId} :
      Built r →
      (∀ known, r.knownApplications.get applicationId = some known → known =
        ⟨applicationId.bytecodeId, applicationId.creation, parameters, requiredApplicationIds⟩) →
      r.registerNewApplication applicationId parameters requiredApplicationIds = .ok r' →
      Built r'

/-- Whether the chain knows an application. -/
def IsRegistered (r : ApplicationRegistryView) (id : UserApplicationId) : Prop :=
  ∃ description, r.knownApplications.get id = some description

/-- The applications that an application requires, as far as the chain knows. -/
def requires (r : ApplicationRegistryView) (id : UserApplicationId) : List UserApplicationId :=
  ((r.knownApplications.get id).map (·.requiredApplicationIds)).getD []

variable {r : ApplicationRegistryView} {description : UserApplicationDescription}
  {id : UserApplicationId} {rank : UserApplicationId → Nat}

theorem requires_of_get (h : r.knownApplications.get id = some description) :
    r.requires id = description.requiredApplicationIds := by
  simp [requires, h]

theorem describeApplication_eq_ok : r.describeApplication id = .ok description ↔
      r.knownApplications.get id = some description := by
  unfold describeApplication
  cases r.knownApplications.get id <;> simp

theorem checkRequired_eq_ok {ids : List UserApplicationId} :
    r.checkRequired ids = .ok () ↔ ∀ id ∈ ids, r.IsRegistered id := by
  induction ids with
  | nil => simp [checkRequired]
  | cons id ids ih =>
    rw [List.forall_mem_cons, ← ih]
    simp only [checkRequired, Except.bind_eq_ok, describeApplication_eq_ok, IsRegistered]
    constructor
    · rintro ⟨description, hget, hids⟩
      exact ⟨⟨description, hget⟩, hids⟩
    · rintro ⟨⟨description, hget⟩, hids⟩
      exact ⟨description, hget, hids⟩

theorem registerApplication_eq_ok {r r' : ApplicationRegistryView}
    {application : UserApplicationDescription} : r.registerApplication application = .ok r' ↔
      (∀ id ∈ application.requiredApplicationIds, r.IsRegistered id) ∧
        r' = ⟨r.knownApplications.insert application.applicationId application⟩ := by
  rw [← checkRequired_eq_ok, registerApplication, Except.bind_eq_ok]
  constructor
  · rintro ⟨⟨⟩, hcheck, hr'⟩
    exact ⟨hcheck, (Except.ok.inj hr').symm⟩
  · rintro ⟨hcheck, rfl⟩
    exact ⟨(), hcheck, rfl⟩

/-- What registrations keep: each description is registered under its own ID, after the ones it
requires. The rank of an application is the time of its registration. -/
structure Ranked (r : ApplicationRegistryView) (rank : UserApplicationId → Nat) (time : Nat) :
    Prop where
  applicationId : ∀ id description, r.knownApplications.get id = some description →
    description.applicationId = id
  registered : ∀ id, ∀ required ∈ r.requires id, r.IsRegistered required
  rank_lt : ∀ id, ∀ required ∈ r.requires id, rank required < rank id
  rank_lt_time : ∀ id, r.IsRegistered id → rank id < time

theorem Ranked.register {r r' : ApplicationRegistryView} {time : Nat}
    {application : UserApplicationDescription} (h : r.Ranked rank time)
    (hsame : ∀ known, r.knownApplications.get application.applicationId = some known →
      known = application) (hregister : r.registerApplication application = .ok r') :
    ∃ rank' time', r'.Ranked rank' time' := by
  obtain ⟨hrequired, rfl⟩ := registerApplication_eq_ok.mp hregister
  have hget := fun id => BTreeMap.get_insert r.knownApplications application.applicationId id
    application
  cases hknown : r.knownApplications.get application.applicationId with
  | some known =>
    -- It was registered before, with the same description: nothing changes.
    obtain rfl := hsame known hknown
    have hinsert : r.knownApplications.insert known.applicationId known = r.knownApplications := by
      refine BTreeMap.ext_get fun id => ?_
      rw [hget]
      split
      · next hid => rw [hid, hknown]
      · rfl
    rw [hinsert]
    exact ⟨rank, time, h⟩
  | none =>
    -- No application requires it yet, since all that is required is registered.
    have hne : ∀ id, r.IsRegistered id → id ≠ application.applicationId := by
      rintro id ⟨description, hid⟩ rfl
      rw [hknown] at hid
      cases hid
    have hrequires : ∀ id, id ≠ application.applicationId →
        requires ⟨r.knownApplications.insert application.applicationId application⟩ id =
          r.requires id := by
      intro id hid
      rw [requires, requires, hget, if_neg hid]
    have hself : requires ⟨r.knownApplications.insert application.applicationId application⟩
        application.applicationId = application.requiredApplicationIds := by
      rw [requires, hget, if_pos rfl, Option.map_some, Option.getD_some]
    have hkept : ∀ id, r.IsRegistered id →
        IsRegistered ⟨r.knownApplications.insert application.applicationId application⟩ id := by
      rintro id ⟨description, hid⟩
      exact ⟨description, by rw [hget, if_neg (hne id ⟨description, hid⟩), hid]⟩
    refine ⟨fun id => if id = application.applicationId then time else rank id, time + 1,
      ?_, ?_, ?_, ?_⟩
    · intro id description hid
      rw [hget] at hid
      split at hid
      · next heq => rw [← Option.some.inj hid, heq]
      · exact h.applicationId id description hid
    · intro id required hid
      by_cases heq : id = application.applicationId
      · rw [heq, hself] at hid
        exact hkept _ (hrequired _ hid)
      · rw [hrequires id heq] at hid
        exact hkept _ (h.registered id required hid)
    · intro id required hid
      by_cases heq : id = application.applicationId
      · rw [heq, hself] at hid
        rw [if_pos heq, if_neg (hne _ (hrequired _ hid))]
        exact h.rank_lt_time _ (hrequired _ hid)
      · rw [hrequires id heq] at hid
        rw [if_neg heq, if_neg (hne _ (h.registered id required hid))]
        exact h.rank_lt id required hid
    · rintro id ⟨description, hid⟩
      rw [hget] at hid
      split
      · exact Nat.lt_succ_self time
      · next heq =>
        rw [if_neg heq] at hid
        exact Nat.lt_succ_of_lt (h.rank_lt_time id ⟨description, hid⟩)

theorem Built.ranked (h : r.Built) : ∃ rank time, r.Ranked rank time := by
  induction h with
  | empty => exact ⟨fun _ => 0, 0, nofun, nofun, nofun, nofun⟩
  | register _ hsame hregister ih =>
    obtain ⟨rank, time, h⟩ := ih
    exact h.register hsame hregister
  | @registerNew r r' applicationId parameters requiredApplicationIds _ hsame hregister ih =>
    -- A new application is registered like one that another chain describes.
    obtain ⟨rank, time, h⟩ := ih
    exact @Ranked.register rank r r' time
      ⟨applicationId.bytecodeId, applicationId.creation, parameters, requiredApplicationIds⟩ h hsame
      hregister

variable (r : ApplicationRegistryView)
  (extraRegisteredApps : BTreeMap UserApplicationId UserApplicationDescription)

/-- The number of elements that an application puts on the stack. -/
def visitSize (description : UserApplicationDescription) : Nat :=
  description.requiredApplicationIds.length + 1

/-- What the applications that have not been seen yet can still put on the stack. -/
def pending (seen : List UserApplicationId) : Nat :=
  (r.knownApplications.retain fun id _ => decide (id ∉ seen)).sumBy fun _ => visitSize

theorem pending_cons {r : ApplicationRegistryView} {seen : List UserApplicationId}
    (hget : r.knownApplications.get id = some description) (hseen : id ∉ seen) :
    r.pending (id :: seen) + visitSize description = r.pending seen := by
  have hremove : r.knownApplications.retain (fun id' _ => decide (id' ∉ id :: seen)) =
      (r.knownApplications.retain fun id' _ => decide (id' ∉ seen)).remove id := by
    refine BTreeMap.ext_get fun id' => ?_
    rw [BTreeMap.get_remove, BTreeMap.get_retain, BTreeMap.get_retain]
    by_cases heq : id' = id <;> simp [heq]
  have hunseen : (r.knownApplications.retain fun id' _ => decide (id' ∉ seen)).get id =
      some description := by
    rw [BTreeMap.get_retain, hget]
    simp [hseen]
  have hsum := BTreeMap.sumBy_remove (fun _ => visitSize)
    (r.knownApplications.retain fun id' _ => decide (id' ∉ seen)) id
  rw [hunseen] at hsum
  rw [pending, hremove]
  exact hsum

theorem describe_of_get {r : ApplicationRegistryView}
    (hextra : ∀ id description, extraRegisteredApps.get id = some description →
      r.knownApplications.get id = some description)
    (hget : r.knownApplications.get id = some description) :
    r.describe extraRegisteredApps id = .ok description := by
  unfold describe
  cases hid : extraRegisteredApps.get id with
  | some known =>
    rw [hextra id known hid] at hget
    rw [Option.some.inj hget]
  | none => exact describeApplication_eq_ok.mpr hget

/-- The search ends, with the required applications in order. -/
theorem findDependenciesLoop_sorts {r : ApplicationRegistryView} {time : Nat}
    (hranked : r.Ranked rank time)
    (hextra : ∀ id description, extraRegisteredApps.get id = some description →
      r.knownApplications.get id = some description)
    {fuel : Nat} {roots stack seen result : List UserApplicationId}
    (hfuel : stack.length + r.pending seen < fuel) (hstack : ∀ id ∈ stack, r.IsRegistered id)
    (h : TopoSort.DepthFirst r.requires rank roots stack seen result) :
    ∃ sorted, r.findDependenciesLoop extraRegisteredApps fuel stack seen result = .ok sorted ∧
      ∃ seen', TopoSort.DepthFirst r.requires rank roots [] seen' sorted := by
  induction fuel generalizing stack seen result with
  | zero => omega
  | succ fuel ih =>
    cases stack with
    | nil => exact ⟨result, rfl, seen, h⟩
    | cons id stack =>
      rw [List.forall_mem_cons] at hstack
      rw [List.length_cons] at hfuel
      rw [findDependenciesLoop]
      split
      · next hresult => exact ih (by omega) hstack.2 (h.skip hresult)
      · next hresult =>
        split
        · next hseen => exact ih (by omega) hstack.2 (h.finish hseen hresult)
        · next hseen =>
          obtain ⟨description, hget⟩ := hstack.1
          rw [describe_of_get extraRegisteredApps hextra hget, Except.ok_bind,
            ← requires_of_get hget]
          refine ih ?_ ?_ (h.visit (hranked.rank_lt id) hseen)
          · -- What is put on the stack is taken from what was pending.
            have hpending := pending_cons hget hseen
            have hlength := List.length_filter_le (fun c => decide (c ∉ id :: seen))
              (r.requires id)
            rw [List.length_append, List.length_cons]
            rw [requires_of_get hget] at hlength ⊢
            unfold visitSize at hpending
            omega
          · intro c hc
            obtain hc | hc := List.mem_append.mp hc
            · exact hranked.registered id c (List.mem_filter.mp hc).1
            · obtain rfl | hc := List.mem_cons.mp hc
              exacts [⟨description, hget⟩, hstack.2 c hc]

/-- The bound on the iterations is enough for a search from any list. -/
theorem pending_nil_le : r.pending [] ≤ r.dependencyBound extraRegisteredApps := by
  have hall : (r.knownApplications.retain fun id _ => decide (id ∉ [])) = r.knownApplications := by
    refine BTreeMap.ext_get fun id => ?_
    rw [BTreeMap.get_retain]
    cases r.knownApplications.get id <;> simp
  rw [pending, hall, BTreeMap.sumBy, dependencyBound, BTreeMap.values, List.map_map]
  exact Nat.le_add_right ..

def registerApplications (r : ApplicationRegistryView)
    (applications : List UserApplicationDescription) :
    Except SystemExecutionError ApplicationRegistryView :=
  applications.foldlM registerApplication r

/-- Applications that are in order can be described, and registered on any chain. -/
theorem registerApplications_of_ordered {r : ApplicationRegistryView} {time : Nat}
    (hranked : r.Ranked rank time)
    (hextra : ∀ id description, extraRegisteredApps.get id = some description →
      r.knownApplications.get id = some description)
    {ids : List UserApplicationId} (h : TopoSort.Ordered r.requires ids)
    (hids : ∀ id ∈ ids, r.IsRegistered id) :
    ∃ descriptions, ids.mapM (r.describe extraRegisteredApps) = .ok descriptions ∧
      ∀ other : ApplicationRegistryView,
        ∃ other', other.registerApplications descriptions = .ok other' ∧
          ∀ id ∈ ids, other'.knownApplications.get id = r.knownApplications.get id := by
  induction h with
  | nil => exact ⟨[], rfl, fun other => ⟨other, rfl, nofun⟩⟩
  | @concat ids id _ hrequired ih =>
    obtain ⟨descriptions, hdescribed, hregister⟩ :=
      ih fun id hid => hids id (List.mem_append_left _ hid)
    obtain ⟨description, hget⟩ := hids id (List.mem_append_right _ List.mem_cons_self)
    obtain rfl := hranked.applicationId id description hget
    refine ⟨descriptions ++ [description], ?_, fun other => ?_⟩
    · rw [List.mapM_append, hdescribed, Except.ok_bind, List.mapM_cons, List.mapM_nil,
        describe_of_get extraRegisteredApps hextra hget]
      rfl
    · obtain ⟨other', hother', hsame⟩ := hregister other
      -- What the last application requires has been registered by now.
      have hlast : ∀ id ∈ description.requiredApplicationIds, other'.IsRegistered id := by
        intro id hid
        rw [← requires_of_get hget] at hid
        obtain ⟨required, hrequired'⟩ := hids id (List.mem_append_left _ (hrequired hid))
        exact ⟨required, (hsame id (hrequired hid)).trans hrequired'⟩
      refine ⟨⟨other'.knownApplications.insert description.applicationId description⟩, ?_, ?_⟩
      · rw [registerApplications, List.foldlM_append, ← registerApplications, hother',
          Except.ok_bind, List.foldlM_cons, registerApplication_eq_ok.mpr ⟨hlast, rfl⟩]
        rfl
      · intro id hid
        dsimp only
        rw [BTreeMap.get_insert]
        split
        · next heq => rw [heq, hget]
        · next hne =>
          refine hsame id ((List.mem_append.mp hid).resolve_right fun hid => hne ?_)
          exact List.mem_singleton.mp hid

/-- In a registry that comes from registrations, `find_dependencies` lists the applications that
the given ones require, directly or not, each once and after the ones it requires. Registering
their descriptions in this order succeeds on any chain. -/
theorem dependencies_registrable {r : ApplicationRegistryView} (hbuilt : r.Built)
    (hextra : ∀ id description, extraRegisteredApps.get id = some description →
      r.knownApplications.get id = some description)
    {ids : List UserApplicationId} (hids : ∀ id ∈ ids, r.IsRegistered id) :
    ∃ sorted, r.findDependencies ids extraRegisteredApps = .ok sorted ∧ sorted.Nodup ∧
      (∀ id, id ∈ sorted ↔ ∃ root ∈ ids,
        ReflTransGen (fun id required => required ∈ r.requires id) root id) ∧
      (∀ before id after, sorted = before ++ id :: after → r.requires id ⊆ before) ∧
      ∃ descriptions,
        r.describeApplicationsWithDependencies ids extraRegisteredApps = .ok descriptions ∧
        ∀ other : ApplicationRegistryView, other.Built →
          ∃ other', other.registerApplications descriptions = .ok other' ∧
            ∀ id ∈ sorted, other'.knownApplications.get id = r.knownApplications.get id := by
  obtain ⟨rank, time, hranked⟩ := hbuilt.ranked
  have hstart : TopoSort.DepthFirst r.requires rank ids ids.reverse [] [] :=
    .start fun _ => List.mem_reverse
  have hbound := r.pending_nil_le extraRegisteredApps
  have hfuel : ids.reverse.length + r.pending [] <
      ids.length + r.dependencyBound extraRegisteredApps + 1 := by
    rw [List.length_reverse]
    omega
  obtain ⟨sorted, hsorted, seen, h⟩ := findDependenciesLoop_sorts extraRegisteredApps hranked
    hextra hfuel (fun id hid => hids id (List.mem_reverse.mp hid)) hstart
  have hregistered : ∀ id ∈ sorted, r.IsRegistered id := by
    intro id hid
    obtain ⟨root, hroot, hreach⟩ := h.complete.mp hid
    cases hreach with
    | refl => exact hids _ hroot
    | tail _ hrequired => exact hranked.registered _ _ hrequired
  obtain ⟨descriptions, hdescribed, hregister⟩ :=
    registerApplications_of_ordered extraRegisteredApps hranked hextra h.ordered hregistered
  refine ⟨sorted, hsorted, h.nodup, fun id => h.complete, ?_, descriptions, ?_, ?_⟩
  · intro before id after heq
    exact h.ordered.subset_of_eq_append heq
  · rw [describeApplicationsWithDependencies, findDependencies, hsorted, Except.ok_bind,
      hdescribed]
  · intro other _
    exact hregister other

/-- The application that was created by message `n`. -/
def requiring (n : Nat) (required : List UserApplicationId) : UserApplicationDescription :=
  ⟨⟨⟨0⟩, ⟨0⟩⟩, ⟨⟨⟨0⟩⟩, 0, n⟩, [], required⟩

/-- Application 1 requires application 0. -/
theorem dependencies_registrable_two :
    ∃ r : ApplicationRegistryView, r.Built ∧
      r.IsRegistered (requiring 1 [(requiring 0 []).applicationId]).applicationId ∧
      ∃ sorted, r.findDependencies [(requiring 1 []).applicationId] .empty = .ok sorted ∧
        sorted.Nodup := by
  obtain ⟨first, hfirst⟩ : ∃ first,
      registerApplication ⟨.empty⟩ (requiring 0 []) = .ok first := ⟨_, rfl⟩
  obtain ⟨r, hr⟩ : ∃ r, first.registerApplication
      (requiring 1 [(requiring 0 []).applicationId]) = .ok r := by
    cases hfirst
    exact ⟨_, rfl⟩
  have hbuilt : r.Built := by
    refine .register (.register .empty nofun hfirst) ?_ hr
    cases hfirst
    decide
  have hregistered : r.IsRegistered (requiring 1 []).applicationId := by
    cases hfirst
    cases hr
    exact ⟨_, rfl⟩
  obtain ⟨sorted, hsorted, hnodup, -⟩ :=
    @dependencies_registrable .empty r hbuilt nofun [(requiring 1 []).applicationId]
      (by simpa using hregistered)
  exact ⟨r, hbuilt, hregistered, sorted, hsorted, hnodup⟩

end ApplicationRegistryView

end Linera
