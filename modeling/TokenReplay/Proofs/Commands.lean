import TokenReplay.Workspace.Exec

/-!
# Commands, one after the other

A run of a workspace is a list of commands that are carried out in order, whatever comes of each.
`Workspace.after` is where it leads and `Workspace.replies` is what it gives.

Actions are put together from a few small ones, and this is how they are reasoned about as well.
`Action.on` is an action as a function of the workspace, and there is one equation for each of the
small ones and one for doing two in a row. What is to be shown of all commands is first shown to
hold of the small actions and to be kept when actions are put together.

## Kinds of commands

Most commands do no more to sources than to walk along their lists, and put nothing but streams,
tokens and factories under names. Their actions are `Workspace.Plain`, which is said of the small
actions and of how they are put together, so what is to be shown of all of these commands is shown
by one induction, with a case for each of the small actions. The other commands change who holds the
id of a source, and there are six of them (`Command.Custodial`). Which command is of which kind is
found once, in `Workspace.plain_action`.
-/

namespace TokenReplay.Workspace

/-! ## Runs -/

/-- The workspace after the commands. -/
def after (workspace : Workspace) (commands : List Command) : Workspace :=
  commands.foldl (fun workspace command ↦ (workspace.exec command).2) workspace

/-- What the commands give, in order. -/
def replies (workspace : Workspace) : List Command → List (Except Fault Reply)
  | [] => []
  | command :: commands =>
    (workspace.exec command).1 :: (workspace.exec command).2.replies commands

@[simp] theorem after_nil (workspace : Workspace) : workspace.after [] = workspace := rfl

@[simp] theorem after_cons (workspace : Workspace) (command : Command) (commands : List Command) :
    workspace.after (command :: commands) = (workspace.exec command).2.after commands := rfl

theorem after_append (workspace : Workspace) (commands more : List Command) :
    workspace.after (commands ++ more) = (workspace.after commands).after more :=
  List.foldl_append

/-! ## Actions as functions -/

/-- What an action gives, and the workspace that it leaves behind. -/
def Action.on {α : Type} (action : Action α) (workspace : Workspace) :
    Except Fault α × Workspace :=
  action.run.run workspace

section On

variable {α β : Type} (workspace : Workspace)

theorem exec_eq_on (command : Command) : workspace.exec command = (action command).on workspace :=
  rfl

theorem on_pure (value : α) : (pure value : Action α).on workspace = (.ok value, workspace) := rfl

/-- Two actions in a row. The second is not taken if the first fails. -/
theorem on_bind (first : Action α) (second : α → Action β) :
    (first >>= second).on workspace =
      match first.on workspace with
      | (.error fault, left) => (.error fault, left)
      | (.ok value, left) => (second value).on left := by
  change StateT.run (ExceptT.run (first >>= second)) workspace = _
  rw [ExceptT.run_bind, StateT.run_bind, Action.on]
  generalize StateT.run (ExceptT.run first) workspace = given
  obtain ⟨outcome, left⟩ := given
  cases outcome <;> rfl

theorem on_get : (get : Action Workspace).on workspace = (.ok workspace, workspace) := rfl

theorem on_modify (f : Workspace → Workspace) :
    (modify f : Action Unit).on workspace = (.ok (), f workspace) := rfl

theorem on_find (registers : Workspace → Registers α) (name : String) :
    (find registers name).on workspace =
      (match (registers workspace).get? name with
        | some value => .ok value
        | none => .error (.unknownName name), workspace) := by
  rw [find, on_bind, on_get]
  dsimp only
  cases (registers workspace).get? name <;> rfl

theorem on_orOverflow (outcome : Except Overflow α) :
    (orOverflow outcome).on workspace = (outcome.mapError .overflow, workspace) := by
  cases outcome <;> rfl

theorem on_inSession (f : Session → α × Session) :
    (inSession f).on workspace =
      (.ok (f workspace.session).1, { workspace with session := (f workspace.session).2 }) := rfl

theorem on_act (name : String) (op : Source → Session → Option (Step Source α)) :
    (act name op).on workspace =
      match workspace.sources.get? name with
      | none => (.error (.unknownName name), workspace)
      | some source =>
        match op source workspace.session with
        | none => (.error .endless, workspace)
        | some step =>
          (step.outcome.mapError .overflow,
            storeSource { workspace with session := step.session } name step.state) := by
  rw [act, on_bind, on_find]
  cases workspace.sources.get? name with
  | none => rfl
  | some source =>
    dsimp only
    rw [on_bind, on_get]
    dsimp only
    cases op source workspace.session with
    | none => rfl
    | some step =>
      dsimp only
      rw [on_bind, on_modify]
      dsimp only
      rw [on_orOverflow]

end On

end TokenReplay.Workspace

namespace TokenReplay

/-! ## Kinds of commands -/

/-- The operations that lead from one place in the list of a source to another. -/
inductive Source.Walk : {α : Type} → (Source → Session → Option (Step Source α)) → Prop
  | next : Walk fun source session ↦ some (source.next session)
  | take (count : Nat) : Walk fun source session ↦ some (source.take count session)
  | drain : Walk Source.drain
  | setFactory {α : Type} (factory : Shared Factory) (given : α) :
      Walk fun source session ↦ some ⟨.ok given, source.setFactory factory, session⟩

/-- The commands that put sources or their ids under names, or take them away. -/
inductive Command.Custodial : Command → Prop
  | openSourceId (id name : String) : Custodial (.openSourceId id name)
  | upgrade (id token : String) : Custodial (.upgrade id token)
  | openSource (source name : String) (tokens : List String) (factory : Option String)
      (copies : Bool) : Custodial (.openSource source name tokens factory copies)
  | record (source base name : String) : Custodial (.record source base name)
  | dropSourceId (id : String) : Custodial (.dropSourceId id)
  | dropSource (source : String) : Custodial (.dropSource source)

namespace Workspace

/-- Actions that leave it to others to hold the ids of sources, and that do not look at the log. -/
inductive Plain : {α : Type} → Action α → Prop
  | protected pure {α : Type} (value : α) : Plain (pure value)
  | protected bind {α β : Type} {first : Action α} {second : α → Action β} (hfirst : Plain first)
      (hsecond : ∀ value, Plain (second value)) : Plain (first >>= second)
  /-- What is read does not depend on the log, nor on whether there is one. -/
  | protected get {α : Type} {second : Workspace → Action α}
      (hlog : ∀ workspace logging log, second { workspace with
        session := { workspace.session with logging := logging, log := log } } = second workspace)
      (hsecond : ∀ workspace, Plain (second workspace)) : Plain (get >>= second)
  | protected find {α : Type} {registers : Workspace → Registers α}
      (hsession : ∀ workspace session,
        registers { workspace with session := session } = registers workspace)
      (name : String) : Plain (find registers name)
  | protected orOverflow {α : Type} (outcome : Except Overflow α) : Plain (orOverflow outcome)
  | protected share {α : Type} (value : α) : Plain (share value)
  /-- A request that is made for nobody but oneself. -/
  | protected send (factory : Shared Factory) (source : Option String) (request : CreateRequest) :
      Plain (inSession fun session ↦ session.create factory source none request)
  | protected modify (ofStreams : Registers (Shared Stream) → Registers (Shared Stream))
      (ofTokens : Registers (Shared Token) → Registers (Shared Token))
      (ofFactories : Registers (Shared Factory) → Registers (Shared Factory)) :
      Plain (modify fun workspace ↦
        { workspace with
          streams := ofStreams workspace.streams
          tokens := ofTokens workspace.tokens
          factories := ofFactories workspace.factories })
  | protected act {α : Type} {op : Source → Session → Option (Step Source α)} (h : Source.Walk op)
      (name : String) : Plain (act name op)

namespace Plain

variable {α : Type}

theorem findAny {registers : Workspace → Registers α}
    (hsession : ∀ workspace session,
      registers { workspace with session := session } = registers workspace)
    (name : Option String) : Plain (findAny registers name) := by
  cases name with
  | none => exact .pure none
  | some name => exact .bind (.find hsession name) fun value ↦ .pure (some value)

theorem keep (name : Option String) (token : Shared Token) : Plain (keep name token) := by
  cases name with
  | none => exact .pure ()
  | some name => exact .modify id (·.put name token) id

theorem resolveOrigin (spec : OriginSpec) : Plain (resolveOrigin spec) := by
  cases spec with
  | nowhere => exact .pure _
  | sameAs token => exact .bind (.find (fun _ _ ↦ rfl) token) fun _ ↦ .pure _
  | given source stream =>
    exact .bind (findAny (fun _ _ ↦ rfl) source) fun _ ↦
      .bind (findAny (fun _ _ ↦ rfl) stream) fun _ ↦ .pure _

theorem change (changes : TokenChanges) (token : Token) : Plain (change changes token) := by
  rw [Workspace.change]
  cases changes.origin with
  | none => exact .pure _
  | some origin => exact .bind (resolveOrigin origin) fun _ ↦ .pure _

theorem introduce (name : Option String) (changes : TokenChanges) (token : Token) :
    Plain (introduce name changes token) :=
  .bind (change changes token) fun changed ↦ .bind (.share changed) fun shared ↦
    .bind (keep name shared) fun _ ↦ .pure _

theorem resolveFactory (spec : FactorySpec) : Plain (resolveFactory spec) := by
  cases spec with
  | common copyText => exact .pure _
  | forwarding copyText dropText => exact .pure _
  | fixed token => exact .bind (.find (fun _ _ ↦ rfl) token) fun _ ↦ .pure _

theorem findFactory (factory : FactoryRef) : Plain (findFactory factory) := by
  cases factory with
  | named factory => exact .find (fun _ _ ↦ rfl) factory
  | ofSource source => exact .bind (.find (fun _ _ ↦ rfl) source) fun _ ↦ .pure _

theorem resolveRequest (spec : RequestSpec) : Plain (resolveRequest spec) :=
  .bind (resolveOrigin spec.origin) fun _ ↦ .pure _

theorem create (factory : Shared Factory) (request : CreateRequest) :
    Plain (create factory request) :=
  .get (fun _ _ _ ↦ rfl) fun _ ↦ .bind (.send factory _ request) fun outcome ↦
    .orOverflow outcome

theorem findTokens (copies : Bool) (names : List String) : Plain (findTokens copies names) := by
  induction names with
  | nil => exact .pure []
  | cons name names ih =>
    refine .bind (.find (fun _ _ ↦ rfl) name) fun found ↦ ?_
    cases copies with
    | true => exact .bind (.share found.value) fun _ ↦ .bind ih fun _ ↦ .pure _
    | false => exact .bind (.pure found) fun _ ↦ .bind ih fun _ ↦ .pure _

theorem dump (exhibit : Exhibit) : Plain (dump exhibit) := by
  cases exhibit with
  | text stream span =>
    exact .bind (.find (fun _ _ ↦ rfl) stream) fun _ ↦ .bind (.orOverflow _) fun _ ↦ .pure _
  | _ => exact .bind (.find (fun _ _ ↦ rfl) _) fun _ ↦ .pure _

end Plain

/-- **Plain commands.** Whatever changes no holder of the id of a source is plain. -/
theorem plain_action {command : Command} (h : ¬command.Custodial) : Plain (action command) := by
  cases command with
  | openStream stream name data =>
    exact .bind (.share _) fun shared ↦ .bind (.modify (·.put stream shared) id id) fun _ ↦ .pure _
  | readText stream span =>
    exact .bind (.find (fun _ _ ↦ rfl) stream) fun _ ↦ .bind (.orOverflow _) fun _ ↦ .pure _
  | sameText stream₁ span₁ stream₂ span₂ =>
    exact .bind (.find (fun _ _ ↦ rfl) stream₁) fun _ ↦
      .bind (.find (fun _ _ ↦ rfl) stream₂) fun _ ↦
        .bind (.orOverflow _) fun _ ↦ .bind (.orOverflow _) fun _ ↦ .pure _
  | openSourceId id name => exact absurd (.openSourceId id name) h
  | makeToken name type text changes => exact .introduce name changes _
  | deriveToken name base changes =>
    exact .bind (.find (fun _ _ ↦ rfl) base) fun _ ↦ .introduce name changes _
  | showToken token => exact .bind (.find (fun _ _ ↦ rfl) token) fun _ ↦ .pure _
  | upgrade id token => exact absurd (.upgrade id token) h
  | makeFactory name spec =>
    exact .bind (.resolveFactory spec) fun _ ↦ .bind (.share _) fun shared ↦
      .bind (.modify id id (·.put name shared)) fun _ ↦ .pure _
  | listCalls factory =>
    exact .bind (.find (fun _ _ ↦ rfl) factory) fun _ ↦ .get (fun _ _ _ ↦ rfl) fun _ ↦ .pure _
  | create name factory spec =>
    exact .bind (.findFactory factory) fun _ ↦ .bind (.resolveRequest spec) fun _ ↦
      .bind (.create _ _) fun token ↦ .bind (.keep name token) fun _ ↦ .pure _
  | openSource source name tokens factory copies =>
    exact absurd (.openSource source name tokens factory copies) h
  | record source base name => exact absurd (.record source base name) h
  | next source name =>
    exact .bind (.act .next source) fun token ↦ .bind (.keep name token) fun _ ↦ .pure _
  | take source count => exact .bind (.act (.take count) source) fun _ ↦ .pure _
  | drain source => exact .bind (.act .drain source) fun _ ↦ .pure _
  | eof source name =>
    refine .bind (.find (fun _ _ ↦ rfl) source) fun found ↦ ?_
    cases found.eof? with
    | none => exact .pure _
    | some eof => exact .bind (.keep name eof) fun _ ↦ .pure _
  | skip source => exact .bind (.find (fun _ _ ↦ rfl) source) fun _ ↦ .pure _
  | more source => exact .bind (.find (fun _ _ ↦ rfl) source) fun _ ↦ .pure _
  | setFactory source factory =>
    exact .bind (.find (fun _ _ ↦ rfl) factory) fun found ↦
      .act (.setFactory found Reply.done) source
  | look source => exact .bind (.find (fun _ _ ↦ rfl) source) fun _ ↦ .pure _
  | dropToken name =>
    exact .get (fun _ _ _ ↦ rfl) fun _ ↦ .bind (.modify id (·.erase name) id) fun _ ↦ .pure _
  | dropSourceId id => exact absurd (.dropSourceId id) h
  | dropSource source => exact absurd (.dropSource source) h
  | dump exhibit => exact .bind (.dump exhibit) fun _ ↦ .pure _

end Workspace

end TokenReplay
