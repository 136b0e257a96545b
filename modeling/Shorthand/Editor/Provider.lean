import Shorthand.Editor.Completion

/-!
# Providers of completions

Completions come from providers.  Each one says whether a request is its business, completes it, and
fills in an item that the user has chosen.  The items of all providers are offered together; a
provider that fails is reported and contributes nothing.

* `Provider.completeAll` : the items of all providers for a request.
* `Provider.resolveAll` : an item that every provider has filled in.
* `Provider.completeAll_append` : providers do not see each other.
-/

set_option autoImplicit false

namespace Shorthand.Editor

/-- A request for completions. -/
structure Request where
  /-- The name of the document. -/
  uri : String
  place : Place
  deriving DecidableEq, Inhabited

/-- Why a request is not answered. -/
inductive Trouble where
  /-- The workspace does not give the document, for a reason that it puts in words. -/
  | noDocument (reason : String)
  | failure (failure : Failure)
  | other (reason : String)
  deriving Inhabited

/-- The trouble in words. -/
def Trouble.message : Trouble → String
  | .noDocument reason => reason
  | .failure f => f.message
  | .other reason => reason

/-- A source of completions. -/
structure Provider where
  /-- Is a request the provider's business? -/
  handles : Request → Except Trouble Bool
  /-- The items for a request, and what there is to report. -/
  complete : Request → List Report × Except Trouble Completions
  /-- Fills in an item. -/
  resolve : Item → Except Trouble Item := .ok
  deriving Inhabited

namespace Provider

/-- What the provider of a name contributes to a request, and what there is to report. -/
def contribution (name : String) (p : Provider) (r : Request) : List Report × Completions :=
  match p.handles r with
  | .ok false => ([], {})
  | .ok true =>
    match p.complete r with
    | (reports, .ok completions) => (reports, completions)
    | (reports, .error trouble) => (reports ++ [.notCompleted name trouble.message], {})
  | .error trouble => ([.notCompleted name trouble.message], {})

/-- The items of all providers for a request, and what there is to report. -/
def completeAll (providers : Table Provider) (r : Request) : List Report × Completions :=
  let contributions := providers.map fun (name, p) ↦ p.contribution name r
  (contributions.flatMap (·.1),
    { isIncomplete := contributions.any (·.2.isIncomplete)
      items := contributions.flatMap (·.2.items) })

/-- An item that every provider has filled in, and what there is to report. -/
def resolveAll : Table Provider → Item → List Report × Item
  | [], item => ([], item)
  | (name, p) :: providers, item =>
    match p.resolve item with
    | .ok item => resolveAll providers item
    | .error trouble =>
      let (reports, item) := resolveAll providers item
      (.notResolved name trouble.message :: reports, item)

/-- Providers do not see each other: their items and reports stand one after the other. -/
theorem completeAll_append (ps qs : Table Provider) (r : Request) :
    completeAll (ps ++ qs) r =
      ((completeAll ps r).1 ++ (completeAll qs r).1,
        { isIncomplete := (completeAll ps r).2.isIncomplete || (completeAll qs r).2.isIncomplete
          items := (completeAll ps r).2.items ++ (completeAll qs r).2.items }) := by
  simp [completeAll]

/-- Providers fill in an item one after the other. -/
theorem resolveAll_append (ps qs : Table Provider) (item : Item) :
    resolveAll (ps ++ qs) item =
      ((resolveAll ps item).1 ++ (resolveAll qs (resolveAll ps item).2).1,
        (resolveAll qs (resolveAll ps item).2).2) := by
  induction ps generalizing item with
  | nil => rfl
  | cons p ps ih =>
    rw [List.cons_append, resolveAll, resolveAll]
    cases p.2.resolve item <;> simp [ih]

end Provider

/-- Something that the server can do for an editor. -/
inductive Capability where
  | completion (provider : Provider)
  | other
  deriving Inhabited

/-- The providers among some capabilities. -/
def providersOf (capabilities : Table Capability) : Table Provider :=
  capabilities.filterMap fun
    | (name, .completion p) => some (name, p)
    | (_, .other) => none

end Shorthand.Editor
