import TokenReplay.Dump
import TokenReplay.Workspace.Command

/-!
# What commands do

Each command is an action on the workspace, and `exec` runs it. Names are looked up first, so a
command with an unknown name does nothing at all. A command that overflows keeps what its operation
left behind: the log, the calls, and how far a source has got; only what it would have given is
lost, and nothing is put under any name.
-/

namespace TokenReplay.Workspace

/-! ## Tokens -/

def resolveOrigin : OriginSpec → Action Origin
  | .nowhere => pure {}
  | .sameAs token => do
    let token ← find tokens token
    pure token.value.origin
  | .given source stream => do
    let source ← findAny sourceIds source
    let stream ← findAny streams stream
    pure ⟨source.map SourceId.key, stream⟩

def change (changes : TokenChanges) (token : Token) : Action Token := do
  let origin ← match changes.origin with
    | none => pure token.origin
    | some origin => resolveOrigin origin
  pure { token with
    channel := changes.channel.getD token.channel
    span := changes.span.getD token.span
    position := changes.position.getD token.position
    index := changes.index.or token.index
    origin := origin }

/-- Gives a changed token its identity and puts it under a name, if there is one. -/
def introduce (name : Option String) (changes : TokenChanges) (token : Token) : Action Reply := do
  let changed ← change changes token
  let shared ← share changed
  keep name shared
  pure (.token (some shared))

/-- Takes hold of the source that a token came from. -/
def upgrade (id token : String) : Action Reply := do
  let token ← find tokens token
  match token.value.origin.source.bind (← get).handles.find? with
  | none => pure (.name none)
  | some source => do
    modify (storeSourceId · id source)
    pure (.name (some source.name))

/-! ## Factories -/

def resolveFactory : FactorySpec → Action Factory
  | .common copyText => pure (.common copyText)
  | .forwarding copyText dropText => pure (.forwarding copyText dropText)
  | .fixed token => do
    let token ← find tokens token
    pure (.fixed token)

def findFactory : FactoryRef → Action (Shared Factory)
  | .named factory => find factories factory
  | .ofSource source => do
    let source ← find sources source
    pure source.factory

/-- The calls of a factory, oldest first. Common factories are not listed. -/
def callsOf (session : Session) (factory : Shared Factory) : Option (List Call) :=
  match factory.value with
  | .common _ => none
  | .custom _ => some (session.calls.toList.filter (·.factory = factory.serial))

def resolveRequest (spec : RequestSpec) : Action CreateRequest := do
  let origin ← resolveOrigin spec.origin
  pure { origin := origin, type := spec.type, text := spec.text, channel := spec.channel,
         span := spec.span, position := spec.position }

/-! ## Sources -/

/-- The tokens of these names, or copies with identities of their own. -/
def findTokens (copies : Bool) : List String → Action (List (Shared Token))
  | [] => pure []
  | name :: names => do
    let token ← find tokens name
    let token ← if copies then share token.value else pure token
    let rest ← findTokens copies names
    pure (token :: rest)

def openSource (source name : String) (names : List String) (factory : Option String)
    (copies : Bool) : Action Reply := do
  let factory ← findAny factories factory
  let list ← findTokens copies names
  let opened ← inSession fun session ↦
    match factory with
    | none => Source.ofTokens list name session
    | some factory => Source.withFactory list name factory session
  modify (storeSource · source opened)
  pure .done

/-- Records a source. The reply is the source that was recorded, as it was left; where the recording
takes its place, that is the last that is seen of it. -/
def record (source base name : String) : Action Reply := do
  let recording ← act base (·.record name)
  let left ← find sources base
  modify (storeSource · source recording)
  pure (.source left)

/-! ## Dumps -/

def dump : Exhibit → Action String
  | .token token => do
    let token ← find tokens token
    pure token.value.dump
  | .origin token => do
    let token ← find tokens token
    pure token.value.origin.dump
  | .sourceId id => do
    let id ← find sourceIds id
    pure id.dump
  | .stream stream => do
    let stream ← find streams stream
    pure stream.value.dump
  | .text stream span => do
    let stream ← find streams stream
    let reading ← orOverflow (stream.value.text span)
    pure (StreamError.dumpReading reading)
  | .factory factory => do
    let factory ← find factories factory
    pure factory.value.dump
  | .source source => do
    let source ← find sources source
    pure source.dump
  | .pass source => do
    let source ← find sources source
    pure (Pass.dump ⟨source, false⟩)

/-! ## Commands -/

/-- The action of a command. -/
def action : Command → Action Reply
  | .openStream stream name data => do
    let shared ← share (Stream.mk name data)
    modify fun workspace ↦ { workspace with streams := workspace.streams.put stream shared }
    pure (.stream shared)
  | .readText stream span => do
    let stream ← find streams stream
    let reading ← orOverflow (stream.value.text span)
    pure (.text reading)
  | .sameText stream₁ span₁ stream₂ span₂ => do
    let stream₁ ← find streams stream₁
    let stream₂ ← find streams stream₂
    let reading₁ ← orOverflow (stream₁.value.text span₁)
    let reading₂ ← orOverflow (stream₂.value.text span₂)
    pure (.flag (sameReading reading₁ reading₂))
  | .openSourceId id name => do
    let serial ← inSession Session.issue
    modify (storeSourceId · id ⟨⟨serial⟩, name⟩)
    pure (.name (some name))
  | .makeToken name type text changes =>
    introduce name changes { type := type, ownText := text }
  | .deriveToken name base changes => do
    let base ← find tokens base
    introduce name changes base.value
  | .showToken token => do
    let token ← find tokens token
    pure (.token (some token))
  | .upgrade id token => upgrade id token
  | .makeFactory name spec => do
    let factory ← resolveFactory spec
    let shared ← share factory
    modify fun workspace ↦ { workspace with factories := workspace.factories.put name shared }
    pure (.factory shared)
  | .listCalls factory => do
    let factory ← find factories factory
    pure (.calls (callsOf (← get).session factory))
  | .create name factory spec => do
    let factory ← findFactory factory
    let request ← resolveRequest spec
    let token ← create factory request
    keep name token
    pure (.token (some token))
  | .openSource source name tokens factory copies => openSource source name tokens factory copies
  | .record source base name => record source base name
  | .next source name => do
    let token ← act source fun source session ↦ some (source.next session)
    keep name token
    pure (.token (some token))
  | .take source count => do
    let items ← act source fun source session ↦ some (source.take count session)
    pure (.items items)
  | .drain source => do
    let tokens ← act source Source.drain
    pure (.tokens tokens)
  | .eof source name => do
    let source ← find sources source
    match source.eof? with
    | none => pure (.token none)
    | some eof => do
      keep name eof
      pure (.token (some eof))
  | .skip source => do
    let _ ← find sources source
    pure .done
  | .more source => do
    let _ ← find sources source
    pure .done
  | .setFactory source factory => do
    let factory ← find factories factory
    act source fun source session ↦ some ⟨.ok .done, source.setFactory factory, session⟩
  | .look source => do
    let _ ← find sources source
    pure .done
  | .dropToken name => do
    let known := ((← get).tokens.get? name).isSome
    modify fun workspace ↦ { workspace with tokens := workspace.tokens.erase name }
    pure (.flag known)
  | .dropSourceId name => do
    let known := ((← get).sourceIds.get? name).isSome
    modify (dropSourceId · name)
    pure (.flag known)
  | .dropSource name => do
    let known := ((← get).sources.get? name).isSome
    modify (dropSource · name)
    pure (.flag known)
  | .dump exhibit => do
    let text ← dump exhibit
    pure (.dump text)

/-- Runs a command. -/
def exec (workspace : Workspace) (command : Command) : Except Fault Reply × Workspace :=
  (action command).run.run workspace

end TokenReplay.Workspace
