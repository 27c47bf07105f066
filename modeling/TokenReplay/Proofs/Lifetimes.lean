import TokenReplay.Proofs.Custody
import TokenReplay.Proofs.Recording

/-!
# No token keeps a source alive

The name of a source can be had from a token as long as somebody holds the id of the source, and
whoever holds it has to be the source itself or a handle. However many tokens name the source as
their origin, and wherever they are, be it in lists of other sources, in recordings or in the source
itself as its end of stream token, they make no difference. Once the last holder has let go, no
token ever gives a name for that source again; ids of later sources have other keys, even if they
have the same name.

`Workspace.sourceName?_iff_holds` says so for all runs of commands. It comes from
`Workspace.conserves_action`, that each command leads from a sound workspace to a sound one without
bringing back an id that is gone. Plain actions cannot do otherwise (`Workspace.Plain.conserves`),
and the six commands that change who holds an id are gone through one by one.
-/

namespace TokenReplay

/-! ## Serials -/

theorem Session.nextSerial_le_create (session : Session) (factory : Shared Factory)
    (source : Option String) (during : Option Building) (request : CreateRequest) :
    session.nextSerial ≤ (session.create factory source during request).2.nextSerial := by
  have hrealize : ∀ (warned : Session) (product : Product),
      warned.nextSerial ≤ (warned.realize product).2.nextSerial := by
    intro warned product
    cases product with
    | fresh token => exact Nat.le_succ _
    | existing token => exact Nat.le_refl _
  rw [create]
  cases factory.value.create request with
  | error e => exact Nat.le_refl _
  | ok creation =>
    dsimp only
    cases creation.copyFailure with
    | none => exact hrealize (session.note _) _
    | some failure =>
      refine Nat.le_trans ?_ (hrealize _ _)
      rw [nextSerial_emit]
      exact Nat.le_refl _

namespace Source

theorem nextSerial_le_next (source : Source) (session : Session) :
    session.nextSerial ≤ (source.next session).session.nextSerial := by
  cases hrest : source.rest with
  | tokens token later =>
    cases hlog : session.logHandedOut source.id.name source.cursor token.value with
    | error e => exact Nat.le_of_eq (by rw [next_of_unshown hrest hlog])
    | ok logged =>
      have hlogged : logged.nextSerial = session.nextSerial := by
        rw [Session.eq_of_logHandedOut hlog]
      exact Nat.le_of_eq (by rw [next_of_tokens hrest hlog, hlogged])
  | ended eof => exact Nat.le_of_eq (by rw [next_of_ended hrest])
  | spent =>
    cases hrequest : source.eofRequest with
    | error e => exact Nat.le_of_eq (by rw [next_of_unplaced hrest hrequest])
    | ok request =>
      have hcreate := session.nextSerial_le_create source.factory (some source.id.name)
        (some ⟨source.id.name⟩) request
      rcases hcreated : session.create source.factory (some source.id.name)
        (some ⟨source.id.name⟩) request with ⟨e | eof, after⟩
      · rw [next_of_refused hrest hrequest hcreated]
        rwa [hcreated] at hcreate
      · rw [next_of_built hrest hrequest hcreated]
        rw [hcreated] at hcreate
        dsimp only at hcreate ⊢
        rwa [Session.nextSerial_emit]

theorem nextSerial_le_haul (limit : Nat) (source : Source) (session : Session) :
    session.nextSerial ≤ (haul limit source session).session.nextSerial := by
  fun_induction haul limit source session with
  | case1 source session => exact Nat.le_refl _
  | case2 limit source session e h => exact nextSerial_le_next source session
  | case3 limit source session token h heof => exact nextSerial_le_next source session
  | case4 limit source session token h heof ih =>
    exact Nat.le_trans (nextSerial_le_next source session) ih

theorem along_haul (limit : Nat) (source : Source) (session : Session) :
    session.nextSerial ≤ (haul limit source session).session.nextSerial ∧
      (haul limit source session).state.id = source.id ∧
      (haul limit source session).state.tokens = source.tokens :=
  ⟨nextSerial_le_haul limit source session, id_of_path (path_haul limit source session),
    tokens_of_path (path_haul limit source session)⟩

theorem Walk.along {α : Type} {op : Source → Session → Option (Step Source α)} (h : Walk op)
    {source : Source} {session : Session} {step : Step Source α}
    (hstep : op source session = some step) :
    session.nextSerial ≤ step.session.nextSerial ∧ step.state.id = source.id ∧
      step.state.tokens = source.tokens := by
  cases h with
  | next =>
    cases hstep
    exact ⟨nextSerial_le_next source session, id_next session, tokens_next session⟩
  | take count =>
    obtain rfl := Option.some.inj hstep
    rw [take_eq_haul]
    exact along_haul count source session
  | drain =>
    rw [drain_eq_haul] at hstep
    obtain ⟨hstate, hsession⟩ := Haul.state_of_finish_eq_some hstep
    rw [hstate, hsession]
    exact along_haul _ source session
  | setFactory factory given =>
    cases hstep
    exact ⟨Nat.le_refl _, rfl, rfl⟩

theorem serial_ofTokens (tokens : List (Shared Token)) (name : String) (session : Session) :
    (ofTokens tokens name session).1.id.key.serial = session.nextSerial + 1 := rfl

theorem serial_of_record {source : Source} {name : String} {session : Session}
    {step : Step Source Source} (h : source.record name session = some step) :
    session.nextSerial ≤ step.session.nextSerial ∧ ∀ made, step.outcome = .ok made →
      session.nextSerial ≤ made.id.key.serial ∧ made.id.key.serial < step.session.nextSerial := by
  have hhaul := nextSerial_le_haul (source.rest.toList.length + 1) source session
  rw [record_eq_haul] at h
  dsimp only at h
  split at h
  · cases h
    exact ⟨hhaul, fun made hmade ↦ by cases hmade⟩
  · cases h
  · cases h
    refine ⟨?_, fun made hmade ↦ ?_⟩
    · rw [nextSerial_ofTokens, Session.nextSerial_emit]
      exact Nat.le_add_right_of_le hhaul
    · cases hmade
      rw [nextSerial_ofTokens, serial_ofTokens, Session.nextSerial_emit]
      exact ⟨Nat.le_add_right_of_le hhaul, Nat.lt_succ_self _⟩

end Source

namespace Workspace

variable {workspace : Workspace}

/-! ## Moves -/

/-- What goes on outside of the registers for sources and their ids is of no account. -/
theorem Sound.leads_of_same (h : workspace.Sound) {later : Workspace}
    (hsourceIds : later.sourceIds = workspace.sourceIds)
    (hsources : later.sources = workspace.sources) (hhandles : later.handles = workspace.handles)
    (hserial : workspace.session.nextSerial ≤ later.session.nextSerial) :
    workspace.Leads later := by
  have hholders : later.holders = workspace.holders := by
    rw [holders, holders, hsourceIds, hsources]
  refine ⟨⟨?_, ?_, ?_, ?_⟩, hserial, ?_, ?_⟩
  · rw [hhandles, hholders]
    exact h.held_perm
  · rw [hholders]
    exact fun id hmem ↦ Nat.lt_of_lt_of_le (h.serial_lt id hmem) hserial
  · rw [hholders]
    exact h.key_inj
  · rw [hsources]
    exact h.nodup
  · rw [hholders]
    exact fun id ↦ .inl
  · rw [hsources]
    exact fun source hmem ↦ .inl ⟨source, hmem, rfl, rfl⟩

theorem Sound.leads_putBack (h : workspace.Sound) {name : String} {source old : Source}
    (hget : workspace.sources.get? name = some old) (hid : source.id = old.id)
    (htokens : source.tokens = old.tokens) :
    workspace.Leads (workspace.storeSource name source) := by
  have hold : old ∈ workspace.sources.values := Registers.mem_values_of_get? hget
  have hmem : source.id ∈ workspace.holders := by
    rw [hid]
    exact List.mem_append_right _ (List.mem_map_of_mem hold)
  have hother : source.id ∉ (workspace.sources.erase name).values.map Source.id := by
    have hnodup := ((Registers.perm_values_erase hget).map Source.id).nodup_iff.mp h.nodup
    rw [hid]
    exact (List.nodup_cons.mp hnodup).1
  refine ⟨h.storeSource (h.admits hmem) hother, Nat.le_refl _, fun id hid ↦ ?_,
    fun other hmem ↦ .inl ?_⟩
  · rcases mem_holders_storeSource hid with rfl | hid
    · exact .inl hmem
    · exact .inl hid
  · rcases Registers.eq_or_mem_of_mem_values_put hmem with rfl | hmem
    · exact ⟨old, hold, hid.symm, htokens.symm⟩
    · exact ⟨other, hmem, rfl, rfl⟩

section New

variable {later : Workspace} {id : SourceId}

/-- A serial that was given out meanwhile is not that of any id from before. -/
theorem Sound.admits_new (hsound : workspace.Sound)
    (hsame : ∀ other ∈ later.holders, other ∈ workspace.holders)
    (hnew : workspace.session.nextSerial ≤ id.key.serial)
    (hlt : id.key.serial < later.session.nextSerial) :
    later.Admits id ∧ id ∉ later.holders := by
  refine ⟨⟨hlt, fun other hmem hkey ↦ ?_⟩, fun hmem ↦ ?_⟩
  · have hother := hsound.serial_lt other (hsame other hmem)
    rw [hkey] at hother
    exact absurd hother (Nat.not_lt_of_le hnew)
  · exact Nat.not_lt_of_le hnew (hsound.serial_lt id (hsame id hmem))

theorem Leads.storeSource_new (h : workspace.Leads later) (hsound : workspace.Sound)
    (hsame : ∀ other ∈ later.holders, other ∈ workspace.holders) {source : Source}
    (hnew : workspace.session.nextSerial ≤ source.id.key.serial)
    (hlt : source.id.key.serial < later.session.nextSerial) (name : String) :
    workspace.Leads (later.storeSource name source) := by
  obtain ⟨hadmits, hunheld⟩ := hsound.admits_new hsame hnew hlt
  have hother : source.id ∉ (later.sources.erase name).values.map Source.id :=
    fun hmem ↦ hunheld (mem_holders_of_mem_withoutSource (List.mem_append_right _ hmem))
  refine ⟨h.sound.storeSource hadmits hother, h.nextSerial_le, fun id hmem ↦ ?_,
    fun other hmem ↦ ?_⟩
  · rcases mem_holders_storeSource hmem with rfl | hmem
    · exact .inr hnew
    · exact .inl (hsame id hmem)
  · rcases Registers.eq_or_mem_of_mem_values_put hmem with rfl | hmem
    · exact .inr hnew
    · exact h.sources other hmem

theorem Leads.storeSourceId_new (h : workspace.Leads later) (hsound : workspace.Sound)
    (hsame : ∀ other ∈ later.holders, other ∈ workspace.holders)
    (hnew : workspace.session.nextSerial ≤ id.key.serial)
    (hlt : id.key.serial < later.session.nextSerial) (name : String) :
    workspace.Leads (later.storeSourceId name id) := by
  obtain ⟨hadmits, -⟩ := hsound.admits_new hsame hnew hlt
  refine ⟨h.sound.storeSourceId hadmits, h.nextSerial_le, fun other hmem ↦ ?_, h.sources⟩
  rcases mem_holders_storeSourceId hmem with rfl | hmem
  · exact .inr hnew
  · exact .inl (hsame other hmem)

end New

theorem Sound.leads_storeSourceId (h : workspace.Sound) {id : SourceId}
    (hmem : id ∈ workspace.holders) (name : String) :
    workspace.Leads (workspace.storeSourceId name id) := by
  refine ⟨h.storeSourceId (h.admits hmem), Nat.le_refl _, fun other hother ↦ .inl ?_,
    h.leads_self.sources⟩
  rcases mem_holders_storeSourceId hother with rfl | hother
  · exact hmem
  · exact hother

theorem Sound.leads_dropSource (h : workspace.Sound) (name : String) :
    workspace.Leads (workspace.dropSource name) :=
  ⟨h.dropSource name, Nat.le_refl _, fun _ hmem ↦ .inl (mem_holders_of_mem_withoutSource hmem),
    fun source hmem ↦ .inl ⟨source, Registers.mem_values_of_mem_erase hmem, rfl, rfl⟩⟩

theorem Sound.leads_dropSourceId (h : workspace.Sound) (name : String) :
    workspace.Leads (workspace.dropSourceId name) :=
  ⟨h.dropSourceId name, Nat.le_refl _,
    fun _ hmem ↦ .inl (mem_holders_of_mem_withoutSourceId hmem), h.leads_self.sources⟩

/-! ## Actions -/

/-- The action leads from sound workspaces to sound ones, whether or not it fails. -/
def Conserves {α : Type} (action : Action α) : Prop :=
  ∀ workspace : Workspace, workspace.Sound → workspace.Leads (action.on workspace).2

namespace Conserves

variable {α β : Type}

protected theorem pure (value : α) : Conserves (pure value) := by
  intro workspace hsound
  rw [on_pure]
  exact hsound.leads_self

protected theorem bind {first : Action α} {second : α → Action β} (h : Conserves first)
    (hsecond : ∀ value, Conserves (second value)) : Conserves (first >>= second) := by
  intro workspace hsound
  have hfirst := h workspace hsound
  rw [on_bind]
  generalize first.on workspace = given at hfirst ⊢
  obtain ⟨outcome, left⟩ := given
  cases outcome with
  | error fault => exact hfirst
  | ok value => exact hfirst.trans (hsecond value left hfirst.sound)

protected theorem get {second : Workspace → Action α}
    (h : ∀ workspace : Workspace, workspace.Sound →
      workspace.Leads ((second workspace).on workspace).2) : Conserves (get >>= second) := by
  intro workspace hsound
  rw [on_bind, on_get]
  exact h workspace hsound

theorem find (registers : Workspace → Registers α) (name : String) :
    Conserves (find registers name) := by
  intro workspace hsound
  rw [on_find]
  exact hsound.leads_self

theorem orOverflow (outcome : Except Overflow α) : Conserves (orOverflow outcome) := by
  intro workspace hsound
  rw [on_orOverflow]
  exact hsound.leads_self

theorem inSession {f : Session → α × Session}
    (h : ∀ session, session.nextSerial ≤ (f session).2.nextSerial) : Conserves (inSession f) := by
  intro workspace hsound
  rw [on_inSession]
  exact hsound.leads_of_same rfl rfl rfl (h workspace.session)

theorem act {name : String} {op : Source → Session → Option (Step Source α)}
    (h : ∀ source session step, op source session = some step →
      session.nextSerial ≤ step.session.nextSerial ∧ step.state.id = source.id ∧
        step.state.tokens = source.tokens) : Conserves (act name op) := by
  intro workspace hsound
  rw [on_act]
  cases hget : workspace.sources.get? name with
  | none => exact hsound.leads_self
  | some source =>
    dsimp only
    cases hstep : op source workspace.session with
    | none => exact hsound.leads_self
    | some step =>
      obtain ⟨hserial, hid, htokens⟩ := h source workspace.session step hstep
      have hsame : workspace.Leads { workspace with session := step.session } :=
        hsound.leads_of_same rfl rfl rfl hserial
      exact hsame.trans (hsame.sound.leads_putBack hget hid htokens)

end Conserves

theorem Plain.conserves {α : Type} {action : Action α} (h : Plain action) : Conserves action := by
  -- By how the action is put together. Holders change only with `act`, which puts a source back.
  induction h with
  | pure value => exact .pure value
  | bind hfirst hsecond ihfirst ihsecond => exact .bind ihfirst ihsecond
  | get hlog hsecond ihsecond => exact .get fun workspace ↦ ihsecond workspace workspace
  | find hsession name => exact .find _ name
  | orOverflow outcome => exact .orOverflow outcome
  | share value => exact .inSession fun session ↦ Nat.le_succ _
  | send factory source request =>
    exact .inSession fun session ↦ session.nextSerial_le_create factory source none request
  | modify ofStreams ofTokens ofFactories =>
    exact fun workspace hsound ↦ hsound.leads_of_same rfl rfl rfl (Nat.le_refl _)
  | act hwalk name => exact .act fun source session step hstep ↦ hwalk.along hstep

/-! ## Commands -/

namespace Conserves

/-- The id that a token leads to is one that is held. -/
theorem upgrade (id token : String) : Conserves (upgrade id token) := by
  refine .bind (find _ token) fun found ↦ .get fun workspace hsound ↦ ?_
  cases hfind : found.value.origin.source.bind workspace.handles.find? with
  | none => exact hsound.leads_self
  | some source =>
    obtain ⟨key, -, hkey⟩ := Option.bind_eq_some_iff.mp hfind
    have hheld := (Handles.mem_held_of_find? hkey).1
    exact hsound.leads_storeSourceId (hsound.held_perm.mem_iff.mp hheld) id

theorem openSource (source name : String) (names : List String) (factory : Option String)
    (copies : Bool) : Conserves (openSource source name names factory copies) := by
  refine .bind (Plain.findAny (fun _ _ ↦ rfl) factory).conserves fun factory ↦
    .bind (Plain.findTokens copies names).conserves fun list ↦ ?_
  intro workspace hsound
  cases factory with
  | none =>
    have hissued : workspace.Leads { workspace with
        session := (Source.ofTokens list name workspace.session).2 } :=
      hsound.leads_of_same rfl rfl rfl (Nat.le_add_right _ 2)
    exact hissued.storeSource_new hsound (fun _ ↦ id) (Nat.le_succ _) (Nat.lt_succ_self _) source
  | some factory =>
    have hissued : workspace.Leads { workspace with
        session := (Source.withFactory list name factory workspace.session).2 } :=
      hsound.leads_of_same rfl rfl rfl (Nat.le_succ _)
    exact hissued.storeSource_new hsound (fun _ ↦ id) (Nat.le_refl _) (Nat.lt_succ_self _) source

theorem record (source base name : String) : Conserves (record source base name) := by
  intro workspace hsound
  have hact : workspace.Leads ((Workspace.act base (·.record name)).on workspace).2 := by
    refine act (fun old session step hstep ↦ ⟨(Source.serial_of_record hstep).1, ?_⟩) workspace
      hsound
    rw [(Source.state_of_record_eq_some hstep).1]
    exact (Source.along_haul _ old session).2
  rw [Workspace.record, on_bind]
  rw [on_act] at hact ⊢
  cases hget : workspace.sources.get? base with
  | none => exact hsound.leads_self
  | some old =>
    rw [hget] at hact
    dsimp only at hact ⊢
    cases hstep : old.record name workspace.session with
    | none => exact hsound.leads_self
    | some step =>
      rw [hstep] at hact
      dsimp only at hact ⊢
      cases houtcome : step.outcome with
      | error e => exact hact
      | ok recording =>
        obtain ⟨hnew, hlt⟩ := (Source.serial_of_record hstep).2 recording houtcome
        have hold : old.id ∈ workspace.holders :=
          List.mem_append_right _ (List.mem_map_of_mem (Registers.mem_values_of_get? hget))
        have hid : step.state.id = old.id := by
          rw [(Source.state_of_record_eq_some hstep).1]
          exact (Source.along_haul _ old workspace.session).2.1
        generalize hleft : Workspace.storeSource { workspace with session := step.session } base
          step.state = left at hact ⊢
        have hsame : ∀ other ∈ left.holders, other ∈ workspace.holders := by
          intro other hmem
          rw [← hleft] at hmem
          rcases mem_holders_storeSource hmem with rfl | hmem
          · rwa [hid]
          · exact hmem
        have hsession : left.session = step.session := by
          rw [← hleft]
          rfl
        rw [← hsession] at hlt
        have hstored : workspace.Leads (left.storeSource source recording) :=
          hact.storeSource_new hsound hsame hnew hlt source
        dsimp only [Except.mapError]
        rw [on_bind, on_find]
        cases left.sources.get? base with
        | none => exact hact
        | some found => exact hstored

end Conserves

theorem conserves_of_custodial {command : Command} (h : command.Custodial) :
    Conserves (action command) := by
  cases h with
  | openSourceId id name =>
    intro workspace hsound
    have hissued : workspace.Leads { workspace with session := workspace.session.issue.2 } :=
      hsound.leads_of_same rfl rfl rfl (Nat.le_succ _)
    exact hissued.storeSourceId_new hsound (fun _ hmem ↦ hmem) (Nat.le_refl _)
      (Nat.lt_succ_self _) id
  | upgrade id token => exact .upgrade id token
  | openSource source name tokens factory copies =>
    exact .openSource source name tokens factory copies
  | record source base name => exact .record source base name
  | dropSourceId name => exact .get fun workspace hsound ↦ hsound.leads_dropSourceId name
  | dropSource name => exact .get fun workspace hsound ↦ hsound.leads_dropSource name

/-- **Every command** leads from a sound workspace to a sound one. -/
theorem conserves_action (command : Command) : Conserves (action command) := by
  by_cases hcustodial : command.Custodial
  · exact conserves_of_custodial hcustodial
  · exact (plain_action hcustodial).conserves

theorem Sound.leads_after (h : workspace.Sound) (commands : List Command) :
    workspace.Leads (workspace.after commands) := by
  induction commands generalizing workspace with
  | nil => exact h.leads_self
  | cons command commands ih =>
    have hcommand := conserves_action command workspace h
    rw [← exec_eq_on] at hcommand
    exact hcommand.trans (ih hcommand.sound)

/-! ## The result -/

/-- How a token that names the source id `id` as its origin comes by a source name, when `more`
commands have followed those of `past`. -/
structure NamedWhileHeld (start : Workspace) (past more : List Command) (id : SourceId)
    (token : Token) : Prop where
  eq_some_iff : token.origin.sourceName? (start.after (past ++ more)).handles = some id.name ↔
    (start.after (past ++ more)).Holds id
  eq_none_iff : token.origin.sourceName? (start.after (past ++ more)).handles = none ↔
    ¬(start.after (past ++ more)).Holds id
  /-- A name that is gone never comes back. -/
  gone : token.origin.sourceName? (start.after (past ++ more)).handles = none → ∀ further,
    token.origin.sourceName? (start.after (past ++ more ++ further)).handles = none
  /-- No other id is taken for this one. -/
  eq_of_key_eq : ∀ other, (start.after (past ++ more)).Holds other → other.key = id.key →
    other = id
  count_le_one : ((start.after (past ++ more)).sources.values.map Source.id).count id ≤ 1
  /-- A source that has the id is the one that it was made for. -/
  source : ∀ name source, (start.after (past ++ more)).sources.get? name = some source →
    source.id = id →
    ∃ name' old, (start.after past).sources.get? name' = some old ∧ old.id = id ∧
      old.tokens = source.tokens

/-- **No token keeps a source alive.** In any run of commands, a token that names the source id `id`
as its origin has the name of that id as its source name exactly as long as the id is held, by a
handle or by the source itself. Where it has none it never has one again. No other id is taken for
this one, and no source but the one that the id was made for has it. -/
theorem sourceName?_iff_holds (session : Session) {past : List Command} {id : SourceId}
    (hcreated : Holds (after { session := session } past) id) {token : Token}
    (htoken : token.origin.source = some id.key) (more : List Command) :
    NamedWhileHeld { session := session } past more id token := by
  let start : Workspace := { session := session }
  let now := start.after (past ++ more)
  have hpast : (start.after past).Sound := ((sound_of_session session).leads_after past).sound
  have hmem : id ∈ (start.after past).holders := holds_iff.mp hcreated
  have hnow : (start.after past).Leads now := by
    have hleads := hpast.leads_after more
    rwa [← after_append] at hleads
  -- The source name at any time from now on.
  have hname : ∀ later : Workspace, (start.after past).Leads later →
      (token.origin.sourceName? later.handles = some id.name ↔ later.Holds id) ∧
      (token.origin.sourceName? later.handles = none ↔ ¬later.Holds id) := by
    intro later hlater
    have hkey : ∀ other ∈ later.holders, other.key = id.key → other = id :=
      fun other hother ↦ hlater.eq_of_key_eq hpast hmem hother
    rw [Origin.sourceName?, htoken, Option.bind_some]
    exact ⟨hlater.sound.nameOf?_eq_some_iff hkey, hlater.sound.nameOf?_eq_none_iff hkey⟩
  refine ⟨(hname now hnow).1, (hname now hnow).2, fun hnone further ↦ ?_, ?_, ?_, ?_⟩
  · have hfurther : now.Leads (start.after (past ++ more ++ further)) := by
      have hleads := hnow.sound.leads_after further
      rwa [← after_append] at hleads
    have hgone : id ∉ now.holders := fun hheld ↦ (hname now hnow).2.mp hnone (holds_iff.mpr hheld)
    refine (hname _ (hnow.trans hfurther)).2.mpr fun hholds ↦ ?_
    exact hnow.not_holds hfurther hpast hmem hgone (holds_iff.mp hholds)
  · exact fun other hother hkey ↦ hnow.eq_of_key_eq hpast hmem (holds_iff.mp hother) hkey
  · exact List.nodup_iff_count.mp hnow.sound.nodup id
  · intro name source hget hid
    rcases hnow.sources source (Registers.mem_values_of_get? hget) with ⟨old, hold, hsame⟩ | hle
    · obtain ⟨name', hget'⟩ := Registers.mem_values_iff.mp hold
      exact ⟨name', old, hget', hsame.1.trans hid, hsame.2⟩
    · rw [hid] at hle
      exact absurd (hpast.serial_lt id hmem) (Nat.not_lt_of_le hle)

/-- A source over no tokens hands out its end of stream token, which is kept, a handle on the source
is got through it, and the source is replaced by a recording of the same name. -/
def handedOn : List Command :=
  [.openSource "s" "unit" [] none false, .next "s" (some "e"), .upgrade "h" "e",
    .record "s" "s" "unit"]

/-- With the source gone the handle is the last to hold its id, and when that is gone too, neither
the token nor the new source of that name bring the id back. -/
theorem sourceName?_iff_holds_handedOn :
    ∃ eof : Shared Token,
      (after {} handedOn).tokens.get? "e" = some eof ∧
      ((after {} handedOn).sources.get? "s").map (·.id.name) = some "unit" ∧
      eof.value.origin.sourceName? (after {} handedOn).handles = some "unit" ∧
      ∀ further, eof.value.origin.sourceName?
        (after {} (handedOn ++ [.dropSourceId "h"] ++ further)).handles = none := by
  have hupgraded : (after {} handedOn).sourceIds.get? "h" = some ⟨⟨1⟩, "unit"⟩ := by decide
  have hcreated : Holds (after {} handedOn) ⟨⟨1⟩, "unit"⟩ := .inl ⟨"h", hupgraded⟩
  have horigin : ((after {} handedOn).tokens.get? "e").map (·.value.origin.source) =
      some (some ⟨1⟩) := by decide
  obtain ⟨eof, hget, hsource⟩ := Option.map_eq_some_iff.mp horigin
  refine ⟨eof, hget, by decide, ?_, ?_⟩
  · have hname := (sourceName?_iff_holds {} hcreated hsource []).eq_some_iff
    rw [List.append_nil] at hname
    exact hname.mpr hcreated
  · refine (sourceName?_iff_holds {} hcreated hsource [.dropSourceId "h"]).gone ?_
    have hgone : (after {} (handedOn ++ [.dropSourceId "h"])).handles.nameOf? ⟨1⟩ = none := by
      decide
    rw [Origin.sourceName?, hsource, Option.bind_some]
    exact hgone

end Workspace

end TokenReplay
