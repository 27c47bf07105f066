import TokenReplay.Lifetime
import TokenReplay.Registers
import TokenReplay.Source.Op

/-!
# Workspaces

A workspace holds streams, source ids, tokens, sources and factories under names, so that they can
be worked on one command after the other. Beside them it has the session they share and the bag of
handles on source ids.

Handles are held by the registers and by nothing else: a source holds its own id, and a source id
holds itself. Two functions put such values into registers and two take them out, and these four
keep the bag in step. Whoever replaces a value takes hold of the new id first and lets go of the old
one after that, so nothing dies in between when both are the same.

An action on a workspace may fail, and it then still leaves a workspace behind, with everything that
happened before.
-/

namespace TokenReplay

/-- Why a command gives nothing. -/
inductive Fault where
  | overflow (cause : Overflow)
  /-- There is nothing under this name. -/
  | unknownName (name : String)
  /-- The command would never end. -/
  | endless
deriving DecidableEq, Repr

/-- Named values and what they have in common. -/
structure Workspace where
  streams : Registers (Shared Stream) := {}
  sourceIds : Registers SourceId := {}
  tokens : Registers (Shared Token) := {}
  sources : Registers Source := {}
  factories : Registers (Shared Factory) := {}
  handles : Handles := {}
  session : Session := {}

namespace Workspace

/-! ## Holding source ids -/

/-- What is left of the handles when the holder of an id in a register goes, if there was one. -/
def releaseOld (handles : Handles) : Option SourceId → Handles
  | none => handles
  | some id => handles.release id

def storeSource (workspace : Workspace) (name : String) (source : Source) : Workspace :=
  let old := (workspace.sources.get? name).map Source.id
  { workspace with
    sources := workspace.sources.put name source
    handles := releaseOld (workspace.handles.hold source.id) old }

def storeSourceId (workspace : Workspace) (name : String) (id : SourceId) : Workspace :=
  let old := workspace.sourceIds.get? name
  { workspace with
    sourceIds := workspace.sourceIds.put name id
    handles := releaseOld (workspace.handles.hold id) old }

def dropSource (workspace : Workspace) (name : String) : Workspace :=
  let old := (workspace.sources.get? name).map Source.id
  { workspace with
    sources := workspace.sources.erase name
    handles := releaseOld workspace.handles old }

def dropSourceId (workspace : Workspace) (name : String) : Workspace :=
  let old := workspace.sourceIds.get? name
  { workspace with
    sourceIds := workspace.sourceIds.erase name
    handles := releaseOld workspace.handles old }

/-! ## Actions -/

/-- Something done to a workspace that may fail. -/
abbrev Action := ExceptT Fault (StateM Workspace)

/-- The value under `name`. -/
def find {α : Type} (registers : Workspace → Registers α) (name : String) : Action α := do
  match (registers (← get)).get? name with
  | some value => pure value
  | none => throw (.unknownName name)

/-- The value under `name`, where there need not be a name. -/
def findAny {α : Type} (registers : Workspace → Registers α) : Option String → Action (Option α)
  | none => pure none
  | some name => do
    let value ← find registers name
    pure (some value)

/-- Goes on with what was computed, if it did not overflow. -/
def orOverflow {α : Type} : Except Overflow α → Action α
  | .ok value => pure value
  | .error cause => throw (.overflow cause)

/-- Does something in the session. -/
def inSession {α : Type} (f : Session → α × Session) : Action α := do
  let workspace ← get
  let (value, session) := f workspace.session
  set { workspace with session := session }
  pure value

/-- Gives a value an identity of its own. -/
def share {α : Type} (value : α) : Action (Shared α) := inSession (·.share value)

/-- Does an operation to the source under `name`. The source is put back also if that fails. -/
def act {α : Type} (name : String) (op : Source → Session → Option (Step Source α)) : Action α := do
  let source ← find sources name
  match op source (← get).session with
  | none => throw .endless
  | some step =>
    modify fun workspace ↦
      storeSource { workspace with session := step.session } name step.state
    orOverflow step.outcome

/-- Has a token made by `factory`, outside of any source. The call is noted with the name that the
source of the request has now. -/
def create (factory : Shared Factory) (request : CreateRequest) : Action (Shared Token) := do
  let source := request.origin.sourceName? (← get).handles
  let outcome ← inSession fun session ↦ session.create factory source none request
  orOverflow outcome

/-- Puts a token under a name, if there is one. -/
def keep (name : Option String) (token : Shared Token) : Action Unit :=
  match name with
  | none => pure ()
  | some name => modify fun workspace ↦
      { workspace with tokens := workspace.tokens.put name token }

end Workspace

end TokenReplay
