import Linera.Execution.TransactionTracker

/-!
# The application registry

The applications that a chain knows, and the order in which an application and
its dependencies are described to another chain.
-/

namespace Linera

/-- The applications that are known by the chain. -/
structure ApplicationRegistryView where
  knownApplications : BTreeMap UserApplicationId UserApplicationDescription
deriving DecidableEq

namespace ApplicationRegistryView

variable (r : ApplicationRegistryView)

/-- Retrieves an application's description. -/
def describeApplication (id : UserApplicationId) :
    Except SystemExecutionError UserApplicationDescription :=
  match r.knownApplications.get id with
  | some description => .ok description
  | none => .error (.unknownApplicationId id)

/-- Makes sure that referenced application ids have been registered. -/
def checkRequired (r : ApplicationRegistryView) :
    List UserApplicationId → Except SystemExecutionError Unit
  | [] => .ok ()
  | requiredId :: ids => do
    let _ ← r.describeApplication requiredId
    r.checkRequired ids

def registerApplication (application : UserApplicationDescription) :
    Except SystemExecutionError ApplicationRegistryView := do
  r.checkRequired application.requiredApplicationIds
  return ⟨r.knownApplications.insert application.applicationId application⟩

def registerNewApplication (applicationId : UserApplicationId) (parameters : Bytes)
    (requiredApplicationIds : List UserApplicationId) :
    Except SystemExecutionError ApplicationRegistryView := do
  r.checkRequired requiredApplicationIds
  let description : UserApplicationDescription :=
    ⟨applicationId.bytecodeId, applicationId.creation, parameters, requiredApplicationIds⟩
  return ⟨r.knownApplications.insert applicationId description⟩

variable (extraRegisteredApps : BTreeMap UserApplicationId UserApplicationDescription)

/-- The description of an application, from `extraRegisteredApps` if it is there. -/
def describe (id : UserApplicationId) : Except SystemExecutionError UserApplicationDescription :=
  match extraRegisteredApps.get id with
  | some description => .ok description
  | none => r.describeApplication id

/-- The loop of `find_dependencies`. The top of the stack is the head of the list; `seen` are the
entries whose dependencies have been pushed, `result` the ones that are sorted. -/
def findDependenciesLoop (r : ApplicationRegistryView)
    (extraRegisteredApps : BTreeMap UserApplicationId UserApplicationDescription) :
    Nat → List UserApplicationId → List UserApplicationId → List UserApplicationId →
      Except SystemExecutionError (List UserApplicationId)
  | 0, _, _, _ => .error .panicked
  | _ + 1, [], _, result => .ok result
  | fuel + 1, id :: stack, seen, result =>
    if id ∈ result then r.findDependenciesLoop extraRegisteredApps fuel stack seen result
    else if id ∈ seen then
      -- Second time we see this entry: its dependencies are now fully sorted.
      r.findDependenciesLoop extraRegisteredApps fuel stack seen (result ++ [id])
    else do
      -- First time we see this entry: schedule all the (yet unseen) dependencies, then this
      -- entry for a second visit.
      let seen := id :: seen
      let app ← r.describe extraRegisteredApps id
      let children := app.requiredApplicationIds.filter (· ∉ seen)
      r.findDependenciesLoop extraRegisteredApps fuel (children ++ id :: stack) seen result

/-- A bound on the number of iterations of `findDependenciesLoop`: each application pushes itself
and its dependencies once. -/
def dependencyBound : Nat :=
  let size := fun description : UserApplicationDescription =>
    description.requiredApplicationIds.length + 1
  (r.knownApplications.values.map size).sum + (extraRegisteredApps.values.map size).sum

/-- Retrieves the recursive dependencies of applications and applies a topological sort. -/
def findDependencies (stack : List UserApplicationId)
    (extraRegisteredApps : BTreeMap UserApplicationId UserApplicationDescription) :
    Except SystemExecutionError (List UserApplicationId) :=
  r.findDependenciesLoop extraRegisteredApps
    (stack.length + r.dependencyBound extraRegisteredApps + 1) stack.reverse [] []

/-- Retrieves applications' descriptions preceded by their recursive dependencies. -/
def describeApplicationsWithDependencies (ids : List UserApplicationId)
    (extraRegisteredApps : BTreeMap UserApplicationId UserApplicationDescription) :
    Except SystemExecutionError (List UserApplicationDescription) := do
  let idsWithDeps ← r.findDependencies ids extraRegisteredApps
  idsWithDeps.mapM (r.describe extraRegisteredApps)

end ApplicationRegistryView

end Linera
