import TokenReplay.Proofs.Account
import TokenReplay.Proofs.Commands
import TokenReplay.Proofs.Failure
import TokenReplay.Proofs.Silence

/-!
# Logging goes unnoticed, up to the first token that cannot be shown

Whether anybody reads the log should not matter to anybody else. It does not, as long as sources are
over tokens that can be shown: two runs of the same commands, one with logging and one without, give
the same replies and go through the same workspaces, but for the log (`Workspace.run_silent`).
Recordings are no exception, not even those that take the place of what they were recorded from.

It does matter where a token cannot be shown, since with logging on it is shown when it is handed
out. Without logging the source goes past that token, and with logging on nothing gets it any
further (`History.cursor_le_of_unreadable`). `logging_unnoticed` puts the two together.

## Two runs in step

Commands are put together from a few actions, so the two runs are compared action by action.
An action is indifferent if it comes to the same without logging and keeps tokens legible
(`Workspace.Indifferent`); two in a row are if the second one is for every value that the first may
give. For plain actions that is all (`Workspace.Plain.indifferent`). What the others give has to be
kept track of, as a recording is legible only because it comes from a legible source, and a source
that is opened only because the tokens are that were looked up for it.
-/

namespace TokenReplay

namespace Workspace

/-- The workspace with logging off and without its log. -/
def silent (workspace : Workspace) : Workspace :=
  { workspace with session := workspace.session.silent }

/-- All tokens in the lists of sources can be shown, and so can the tokens under `names`. -/
structure Legible (names : List String) (workspace : Workspace) : Prop where
  sources : ∀ source ∈ workspace.sources.values, source.Legible
  tokens : ∀ name ∈ names, ∀ token, workspace.tokens.get? name = some token →
    ¬token.value.Unreadable

theorem Legible.storeSource {names : List String} {workspace : Workspace}
    (h : workspace.Legible names) (name : String) {source : Source} (hsource : source.Legible) :
    (workspace.storeSource name source).Legible names := by
  refine ⟨fun other hmem ↦ ?_, h.tokens⟩
  rcases Registers.eq_or_mem_of_mem_values_put hmem with rfl | hmem
  · exact hsource
  · exact h.sources other hmem

/-! ## Actions that logging makes no difference to -/

/-- As long as tokens can be shown, the action comes to the same without logging, leaves tokens that
can be shown, and gives values with `P`. -/
def Indifferent {α : Type} (names : List String) (action : Action α) (P : α → Prop) : Prop :=
  ∀ workspace : Workspace, workspace.Legible names →
    action.on workspace.silent = ((action.on workspace).1, (action.on workspace).2.silent) ∧
      (action.on workspace).2.Legible names ∧
      ∀ value, (action.on workspace).1 = .ok value → P value

namespace Indifferent

variable {α β : Type} {names : List String} {P : α → Prop}

protected theorem pure {value : α} (h : P value) :
    Indifferent names (pure value) P := by
  intro workspace hlegible
  rw [on_pure, on_pure]
  refine ⟨rfl, hlegible, fun other hother ↦ ?_⟩
  cases hother
  exact h

protected theorem bind {first : Action α} {second : α → Action β} {Q : β → Prop}
    (h : Indifferent names first P)
    (hsecond : ∀ value, P value → Indifferent names (second value) Q) :
    Indifferent names (first >>= second) Q := by
  intro workspace hlegible
  obtain ⟨hsilent, hleft, hgives⟩ := h workspace hlegible
  rw [on_bind, on_bind, hsilent]
  generalize first.on workspace = given at hleft hgives ⊢
  obtain ⟨outcome, left⟩ := given
  cases outcome with
  | error fault =>
    refine ⟨rfl, hleft, fun other hother ↦ ?_⟩
    cases hother
  | ok value => exact hsecond value (hgives value rfl) left hleft

/-- What is read from the workspace may be anything but the log. -/
protected theorem get {second : Workspace → Action α}
    (hsilent : ∀ workspace : Workspace, second workspace.silent = second workspace)
    (h : ∀ workspace, Indifferent names (second workspace) P) :
    Indifferent names (get >>= second) P := by
  intro workspace hlegible
  have hget : ∀ workspace, (get >>= second).on workspace = (second workspace).on workspace := by
    intro workspace
    rw [on_bind, on_get]
  rw [hget, hget, hsilent]
  exact h workspace workspace hlegible

protected theorem modify {f : Workspace → Workspace}
    (hsilent : ∀ workspace : Workspace, f workspace.silent = (f workspace).silent)
    (h : ∀ workspace : Workspace, workspace.Legible names → (f workspace).Legible names) :
    Indifferent names (modify f) fun _ ↦ True := by
  intro workspace hlegible
  refine ⟨?_, h workspace hlegible, fun _ _ ↦ trivial⟩
  rw [on_modify, on_modify, hsilent]

protected theorem find {registers : Workspace → Registers α}
    (hsilent : ∀ workspace : Workspace, registers workspace.silent = registers workspace)
    {name : String} (h : ∀ workspace : Workspace, workspace.Legible names →
      ∀ value, (registers workspace).get? name = some value → P value) :
    Indifferent names (find registers name) P := by
  intro workspace hlegible
  rw [on_find, on_find, hsilent]
  refine ⟨rfl, hlegible, fun value hvalue ↦ ?_⟩
  cases hget : (registers workspace).get? name with
  | none =>
    rw [hget] at hvalue
    cases hvalue
  | some found =>
    rw [hget] at hvalue
    cases hvalue
    exact h workspace hlegible _ hget

protected theorem orOverflow (outcome : Except Overflow α) :
    Indifferent names (orOverflow outcome) fun _ ↦ True := by
  intro workspace hlegible
  rw [on_orOverflow, on_orOverflow]
  exact ⟨rfl, hlegible, fun _ _ ↦ trivial⟩

protected theorem inSession {f : Session → α × Session}
    (hsilent : ∀ session : Session, f session.silent = ((f session).1, (f session).2.silent))
    (h : ∀ session, P (f session).1) : Indifferent names (inSession f) P := by
  intro workspace hlegible
  rw [on_inSession, on_inSession]
  refine ⟨?_, ⟨hlegible.sources, hlegible.tokens⟩, fun value hvalue ↦ ?_⟩
  · rw [silent, hsilent]
    rfl
  · cases hvalue
    exact h _

protected theorem act {name : String} {op : Source → Session → Option (Step Source α)}
    (h : ∀ source session, source.Legible →
      op source session.silent = (op source session).map Step.silent ∧
        ∀ step, op source session = some step →
          step.state.Legible ∧ ∀ value, step.outcome = .ok value → P value) :
    Indifferent names (act name op) P := by
  intro workspace hlegible
  rw [on_act, on_act]
  have hsources : workspace.silent.sources = workspace.sources := rfl
  have hsession : workspace.silent.session = workspace.session.silent := rfl
  rw [hsources, hsession]
  cases hget : workspace.sources.get? name with
  | none =>
    refine ⟨rfl, hlegible, fun other hother ↦ ?_⟩
    cases hother
  | some source =>
    obtain ⟨hop, hkept⟩ := h source workspace.session
      (hlegible.sources source (Registers.mem_values_of_get? hget))
    dsimp only
    rw [hop]
    cases hstep : op source workspace.session with
    | none =>
      refine ⟨rfl, hlegible, fun other hother ↦ ?_⟩
      cases hother
    | some step =>
      obtain ⟨hstate, hgives⟩ := hkept step hstep
      have hsame : Legible names { workspace with session := step.session } :=
        ⟨hlegible.sources, hlegible.tokens⟩
      refine ⟨rfl, hsame.storeSource name hstate, fun value hvalue ↦ ?_⟩
      cases houtcome : step.outcome with
      | error e =>
        dsimp only at hvalue
        rw [houtcome] at hvalue
        cases hvalue
      | ok given =>
        dsimp only at hvalue
        rw [houtcome] at hvalue
        cases hvalue
        exact hgives _ houtcome

/-! ### The actions of the workspace -/

theorem findAnything {registers : Workspace → Registers α}
    (hsilent : ∀ workspace : Workspace, registers workspace.silent = registers workspace)
    (name : String) : Indifferent names (Workspace.find registers name) fun _ ↦ True :=
  .find hsilent fun _ _ _ _ ↦ trivial

theorem findAny {registers : Workspace → Registers α}
    (hsilent : ∀ workspace : Workspace, registers workspace.silent = registers workspace)
    (name : Option String) : Indifferent names (findAny registers name) fun _ ↦ True := by
  cases name with
  | none => exact .pure trivial
  | some name =>
    exact .bind (findAnything hsilent name) fun _ _ ↦ .pure trivial

theorem upgrade (id token : String) : Indifferent names (upgrade id token) fun _ ↦ True := by
  refine .bind (findAnything (fun _ ↦ rfl) token) fun found _ ↦
    .get (fun _ ↦ rfl) fun workspace ↦ ?_
  cases found.value.origin.source.bind workspace.handles.find? with
  | none => exact .pure trivial
  | some source =>
    refine .bind (.modify (fun _ ↦ rfl) fun workspace hlegible ↦ ?_) fun _ _ ↦ .pure trivial
    exact ⟨hlegible.sources, hlegible.tokens⟩

theorem findTokens (copies : Bool) (listed : List String) (hlisted : listed ⊆ names) :
    Indifferent names (findTokens copies listed) fun tokens ↦
      ∀ token ∈ tokens, ¬token.value.Unreadable := by
  induction listed with
  | nil =>
    refine .pure fun token hmem ↦ ?_
    cases hmem
  | cons name listed ih =>
    have hfind : Indifferent names (Workspace.find tokens name) fun token : Shared Token ↦
        ¬token.value.Unreadable :=
      .find (fun _ ↦ rfl) fun workspace hlegible token hget ↦
        hlegible.tokens name (hlisted List.mem_cons_self) token hget
    have hrest := ih fun _ hmem ↦ hlisted (List.mem_cons_of_mem _ hmem)
    refine .bind hfind fun found hfound ↦ ?_
    cases copies with
    | true =>
      have hshare : Indifferent names (Workspace.share found.value) fun token : Shared Token ↦
          ¬token.value.Unreadable :=
        .inSession (fun session ↦ session.share_silent found.value) fun _ ↦ hfound
      exact .bind hshare fun token htoken ↦
        .bind hrest fun rest hrest ↦ .pure (List.forall_mem_cons.mpr ⟨htoken, hrest⟩)
    | false =>
      exact .bind (.pure hfound) fun token htoken ↦
        .bind hrest fun rest hrest ↦ .pure (List.forall_mem_cons.mpr ⟨htoken, hrest⟩)

theorem storeSource (name : String) {source : Source} (h : source.Legible) :
    Indifferent names (modify (Workspace.storeSource · name source)) fun _ ↦ True :=
  .modify (fun _ ↦ rfl) fun _ hlegible ↦ hlegible.storeSource name h

theorem openSource (source name : String) (factory : Option String) (copies : Bool) :
    Indifferent names (openSource source name names factory copies) fun _ ↦ True := by
  refine .bind (findAny (fun _ ↦ rfl) factory) fun factory _ ↦
    .bind (findTokens copies names (List.Subset.refl names)) fun list hlist ↦
      .bind (P := Source.Legible) ?_ fun opened hopened ↦
        .bind (storeSource source hopened) fun _ _ ↦ .pure trivial
  cases factory with
  | none =>
    refine .inSession (fun session ↦ Source.ofTokens_silent list name session) fun session ↦ ?_
    rwa [Source.Legible, Source.tokens_ofTokens]
  | some factory =>
    refine .inSession (fun session ↦ Source.withFactory_silent list name factory session)
      fun session ↦ ?_
    rwa [Source.Legible, Source.tokens_withFactory]

theorem record (source base name : String) :
    Indifferent names (record source base name) fun _ ↦ True := by
  refine .bind (P := Source.Legible) (.act fun left session hlegible ↦ ?_) fun recording h ↦
    .bind (findAnything (fun _ ↦ rfl) base) fun _ _ ↦
      .bind (storeSource source h) fun _ _ ↦ .pure trivial
  exact ⟨hlegible.record_silent name session, fun step hstep ↦ hlegible.record hstep⟩

end Indifferent

end Workspace

/-! ## Commands -/

theorem Source.Walk.silent {α : Type} {op : Source → Session → Option (Step Source α)}
    (h : Walk op) {source : Source} (hlegible : source.Legible) (session : Session) :
    op source session.silent = (op source session).map Step.silent ∧
      ∀ step, op source session = some step → step.state.Legible := by
  cases h with
  | next =>
    refine ⟨congrArg some (hlegible.next_silent session), fun step hstep ↦ ?_⟩
    cases hstep
    exact hlegible.next session
  | take count =>
    refine ⟨congrArg some (hlegible.take_silent count session), fun step hstep ↦ ?_⟩
    cases hstep
    exact hlegible.take count session
  | drain => exact ⟨hlegible.drain_silent session, fun step hstep ↦ hlegible.drain hstep⟩
  | setFactory factory given =>
    refine ⟨rfl, fun step hstep ↦ ?_⟩
    cases hstep
    exact hlegible

/-- The names of the tokens that a command opens a source over. -/
def Command.listed : Command → List String
  | .openSource _ _ tokens _ _ => tokens
  | _ => []

theorem Command.listed_of_not_custodial {command : Command} (h : ¬command.Custodial) :
    command.listed = [] := by
  cases command with
  | openSource source name tokens factory copies =>
    exact absurd (.openSource source name tokens factory copies) h
  | _ => rfl

namespace Workspace

theorem Plain.indifferent {α : Type} {action : Action α} (h : Plain action) :
    Indifferent [] action fun _ ↦ True := by
  -- By how the action is put together. No source is made, so nothing has to be known of values.
  induction h with
  | pure value => exact .pure trivial
  | bind hfirst hsecond ihfirst ihsecond => exact .bind ihfirst fun value _ ↦ ihsecond value
  | get hlog hsecond ihsecond => exact .get (fun workspace ↦ hlog workspace _ _) ihsecond
  | find hsession name => exact .findAnything (fun workspace ↦ hsession workspace _) name
  | orOverflow outcome => exact .orOverflow outcome
  | share value => exact .inSession (fun session ↦ session.share_silent value) fun _ ↦ trivial
  | send factory source request =>
    exact .inSession (fun session ↦ session.create_silent _ _ _ _) fun _ ↦ trivial
  | modify ofStreams ofTokens ofFactories =>
    refine .modify (fun _ ↦ rfl) fun workspace hlegible ↦ ⟨hlegible.sources, ?_⟩
    intro name hmem
    cases hmem
  | act hwalk name =>
    refine .act fun source session hlegible ↦ ?_
    obtain ⟨hsilent, hkept⟩ := hwalk.silent hlegible session
    exact ⟨hsilent, fun step hstep ↦ ⟨hkept step hstep, fun _ _ ↦ trivial⟩⟩

theorem indifferent_of_custodial {command : Command} (h : command.Custodial) :
    Indifferent command.listed (action command) fun _ ↦ True := by
  cases h with
  | openSourceId id name =>
    have hissue : Indifferent [] (inSession Session.issue) fun _ ↦ True :=
      .inSession Session.issue_silent fun _ ↦ trivial
    exact .bind hissue fun _ _ ↦
      .bind (.modify (fun _ ↦ rfl) fun _ h ↦ ⟨h.sources, h.tokens⟩) fun _ _ ↦ .pure trivial
  | upgrade id token => exact .upgrade id token
  | openSource source name tokens factory copies => exact .openSource source name factory copies
  | record source base name => exact .record source base name
  | dropSourceId name =>
    exact .get (fun _ ↦ rfl) fun _ ↦
      .bind (.modify (fun _ ↦ rfl) fun _ h ↦ ⟨h.sources, h.tokens⟩) fun _ _ ↦ .pure trivial
  | dropSource name =>
    refine .get (fun _ ↦ rfl) fun _ ↦
      .bind (.modify (fun _ ↦ rfl) fun _ h ↦ ⟨fun source hmem ↦ ?_, h.tokens⟩) fun _ _ ↦
        .pure trivial
    exact h.sources source (Registers.mem_values_of_mem_erase hmem)

/-- **Every command** comes to the same without logging, if the tokens that it opens a source over
can be shown. -/
theorem indifferent_action (command : Command) :
    Indifferent command.listed (action command) fun _ ↦ True := by
  by_cases hcustodial : command.Custodial
  · exact indifferent_of_custodial hcustodial
  · rw [Command.listed_of_not_custodial hcustodial]
    exact (plain_action hcustodial).indifferent

/-! ## Runs -/

/-- The tokens under these names can be shown. -/
def CanShow (workspace : Workspace) (names : List String) : Prop :=
  ∀ name ∈ names, ∀ token, workspace.tokens.get? name = some token → ¬token.value.Unreadable

/-- Each time that the commands open a source, they open it over tokens that can be shown. -/
def OpensLegibly : Workspace → List Command → Prop
  | _, [] => True
  | workspace, command :: commands =>
    workspace.CanShow command.listed ∧ OpensLegibly (workspace.exec command).2 commands

theorem exec_silent {workspace : Workspace} {command : Command}
    (hsources : ∀ source ∈ workspace.sources.values, source.Legible)
    (hopened : workspace.CanShow command.listed) :
    workspace.silent.exec command =
        ((workspace.exec command).1, (workspace.exec command).2.silent) ∧
      ∀ source ∈ (workspace.exec command).2.sources.values, source.Legible := by
  obtain ⟨hsilent, hlegible, -⟩ := indifferent_action command workspace ⟨hsources, hopened⟩
  exact ⟨hsilent, hlegible.sources⟩

theorem run_silent {workspace : Workspace} {commands : List Command}
    (hsources : ∀ source ∈ workspace.sources.values, source.Legible)
    (hopened : workspace.OpensLegibly commands) {past : List Command} (hpast : past <+: commands) :
    workspace.silent.replies past = workspace.replies past ∧
      workspace.silent.after past = (workspace.after past).silent := by
  induction past generalizing workspace commands with
  | nil => exact ⟨rfl, rfl⟩
  | cons command past ih =>
    obtain ⟨more, rfl⟩ := hpast
    obtain ⟨hcommand, hrest⟩ := hopened
    obtain ⟨hsilent, hlegible⟩ := exec_silent hsources hcommand
    obtain ⟨hreplies, hafter⟩ := ih hlegible hrest (List.prefix_append past more)
    rw [replies, replies, after_cons, after_cons, hsilent]
    exact ⟨by rw [hreplies], hafter⟩

end Workspace

/-! ## Stopped by the log -/

namespace Source

variable {source : Source}

theorem exists_rest_of_getElem? {token : Shared Token}
    (h : source.tokens[source.cursor]? = some token) :
    ∃ later, source.rest = .tokens token later := by
  rw [getElem?_tokens_cursor] at h
  cases hrest : source.rest with
  | tokens next later =>
    rw [hrest, Rest.toList_tokens, List.head?_cons] at h
    exact ⟨later, by rw [Option.some.inj h]⟩
  | spent =>
    rw [hrest] at h
    cases h
  | ended eof =>
    rw [hrest] at h
    cases h

theorem cursor_next_le (session : Session) :
    (source.next session).state.cursor ≤ source.cursor + 1 := by
  generalize hstep : source.next session = step
  cases advance_of_next_eq hstep with
  | listed hrest hlog => exact Nat.le_refl _
  | _ => exact Nat.le_succ _

end Source

namespace History

/-- With logging on, a source does not get past a token that cannot be shown. -/
theorem cursor_le_of_unreadable {start : Source} {i : Nat} {astray : Shared Token}
    (hastray : start.tokens[i]? = some astray) (hunreadable : astray.value.Unreadable)
    (hstart : start.cursor ≤ i) {turns : List Turn} {history : History}
    (hlogging : ∀ turn ∈ turns, turn.session.logging = true)
    (hrun : (ofSource start).run? turns = some history) : history.source.cursor ≤ i := by
  have hpulls : ∀ pull ∈ history.pulls, pull.session.logging = true := by
    intro pull hmem
    rw [(episodes_of_run? hrun).2.2] at hmem
    obtain ⟨episode, hepisode, hpull⟩ := List.mem_flatMap.mp hmem
    exact ((logs_of_run? hrun hlogging episode hepisode).pulls_logging pull hpull).1
  refine (History.induction (P := fun history ↦
    (∀ pull ∈ history.pulls, pull.session.logging = true) →
      history.source.tokens = start.tokens ∧ history.source.cursor ≤ i) hrun ?_ ?_ ?_ hpulls).2
  · intro history factory _ h hall
    exact h hall
  · intro history session h hall
    obtain ⟨htokens, hcursor⟩ := h fun pull hmem ↦ hall pull (List.mem_append_left _ hmem)
    refine ⟨by rw [pull, Source.tokens_next, htokens], ?_⟩
    rcases Nat.lt_or_eq_of_le hcursor with hlt | heq
    · exact Nat.le_trans (Source.cursor_next_le session) hlt
    · have hblocked : history.source.Blocked session.logging := by
        refine .inr ⟨?_, astray, by rw [htokens, heq, hastray], hunreadable⟩
        exact hall ⟨history.source, session⟩ (List.mem_append_right _ List.mem_cons_self)
      rw [pull, hblocked.next]
      exact hcursor
  · exact fun _ ↦ ⟨rfl, hstart⟩

/-- With logging on, calls lead up to the first token that cannot be shown, and there they end. -/
theorem exists_run?_calls_of_unreadable {history : History} {i : Nat} {astray : Shared Token}
    (hastray : history.source.tokens[i]? = some astray) (hunreadable : astray.value.Unreadable)
    (hfirst : ∀ j < i, ∀ token, history.source.tokens[j]? = some token →
      ¬token.value.Unreadable)
    (hcursor : history.source.cursor ≤ i) {sessions : List Session}
    (hlogging : ∀ session ∈ sessions, session.logging = true) :
    ∃ later, history.run? (Turn.calls sessions) = some later ∧
      later.source.cursor = min (history.source.cursor + sessions.length) i := by
  induction sessions generalizing history with
  | nil => exact ⟨history, rfl, (Nat.min_eq_left hcursor).symm⟩
  | cons session sessions ih =>
    obtain ⟨hsession, hothers⟩ := List.forall_mem_cons.mp hlogging
    have htokens : (history.pull session).source.tokens = history.source.tokens :=
      Source.tokens_next session
    have hturn : history.run? (Turn.calls (session :: sessions)) =
        (history.pull session).run? (Turn.calls sessions) := by
      rw [Turn.calls, List.map_cons, run?, List.foldlM_cons]
      rfl
    rw [hturn, List.length_cons]
    rw [← htokens] at hastray hfirst
    rcases Nat.lt_or_eq_of_le hcursor with hlt | heq
    · have hmoved : (history.pull session).source.cursor = history.source.cursor + 1 := by
        obtain ⟨hsize, -⟩ := List.getElem?_eq_some_iff.mp hastray
        rw [htokens] at hfirst hsize
        have hnext := List.getElem?_eq_getElem (Nat.lt_trans hlt hsize)
        obtain ⟨later, hrest⟩ := Source.exists_rest_of_getElem? hnext
        rw [pull, (Source.next_of_readable hrest fun _ ↦ hfirst _ hlt _ hnext).2, Source.cursor,
          Source.past, List.length_append, List.length_reverse, List.length_singleton,
          Nat.add_comm, ← Source.cursor]
      obtain ⟨later, hrun, hlater⟩ := ih hastray hfirst (hmoved ▸ hlt) hothers
      exact ⟨later, hrun, by rw [hlater, hmoved, Nat.add_assoc, Nat.add_comm 1]⟩
    · have hblocked : history.source.Blocked session.logging := by
        refine .inr ⟨hsession, astray, ?_, hunreadable⟩
        rw [← htokens, heq, hastray]
      have hstill : (history.pull session).source = history.source := by
        rw [pull, hblocked.next]
      obtain ⟨later, hrun, hlater⟩ := ih hastray hfirst (hstill ▸ hcursor) hothers
      refine ⟨later, hrun, ?_⟩
      rw [hlater, hstill, heq, Nat.min_eq_right (Nat.le_add_right _ _),
        Nat.min_eq_right (Nat.le_add_right _ _)]

end History

/-- Nothing would be different after these commands if there were no logging. -/
structure Unnoticed (workspace : Workspace) (commands : List Command) : Prop where
  replies_eq : workspace.silent.replies commands = workspace.replies commands
  sources_eq : (workspace.silent.after commands).sources = (workspace.after commands).sources
  after_eq : workspace.silent.after commands = (workspace.after commands).silent

/-- With logging on, a new source over `tokens` is stopped at the token `i`, and only then. -/
structure StopsAt (start : History) (tokens : List (Shared Token)) (i : Nat) : Prop where
  /-- Without logging, calls lead past it. -/
  passes : ∀ sessions : List Session, (∀ other ∈ sessions, other.logging = false) →
    sessions.length = i + 1 →
    ∃ history, start.run? (Turn.calls sessions) = some history ∧
      history.handedOut = tokens.take (i + 1) ∧ history.source.cursor = i + 1
  /-- With logging, calls lead up to it. -/
  stops : ∀ sessions : List Session, (∀ other ∈ sessions, other.logging = true) →
    ∃ history, start.run? (Turn.calls sessions) = some history ∧
      history.source.cursor = min sessions.length i
  /-- With logging, nothing leads past it. -/
  cursor_le : ∀ (turns : List Turn) (history : History),
    (∀ turn ∈ turns, turn.session.logging = true) → start.run? turns = some history →
    history.source.cursor ≤ i

/-- **Who notices.** As long as sources have only tokens that can be shown, a run comes to the same
without logging: the same replies and the same sources after every command. A token of a list that
cannot be shown is noticed: without logging it is handed out like any other, and with logging on the
source does not get past the first such token, neither by calls, however many, nor in any other way.
-/
theorem logging_unnoticed :
    (∀ (workspace : Workspace) (commands past : List Command),
      (∀ source ∈ workspace.sources.values, source.Legible) →
      workspace.OpensLegibly commands → past <+: commands → Unnoticed workspace past) ∧
    ∀ (tokens : List (Shared Token)) (name : String) (factory : Shared Factory)
      (session : Session) (i : Nat) (astray : Shared Token),
      tokens[i]? = some astray → astray.value.Unreadable →
      (∀ j < i, ∀ token, tokens[j]? = some token → ¬token.value.Unreadable) →
      StopsAt (History.ofSource (Source.withFactory tokens name factory session).1) tokens i := by
  refine ⟨fun workspace commands past hsources hopened hpast ↦ ?_, ?_⟩
  · obtain ⟨hreplies, hafter⟩ := Workspace.run_silent hsources hopened hpast
    exact ⟨hreplies, by rw [hafter]; rfl, hafter⟩
  · intro tokens name factory session i astray hastray hunreadable hfirst
    let start := History.ofSource (Source.withFactory tokens name factory session).1
    have htokens : start.source.tokens = tokens := Source.tokens_withFactory _ _ _ _
    have hthere : start.source.tokens[i]? = some astray := by rwa [htokens]
    have hbefore : ∀ j < i, ∀ token, start.source.tokens[j]? = some token →
        ¬token.value.Unreadable := by rwa [htokens]
    refine ⟨fun sessions hquiet hlength ↦ ?_, fun sessions hlogging ↦ ?_, ?_⟩
    · have hlist : start.source.rest.toList = tokens.take (i + 1) ++ tokens.drop (i + 1) := by
        rw [List.take_append_drop]
        exact Rest.toList_ofList tokens
      obtain ⟨hlt, -⟩ := List.getElem?_eq_some_iff.mp hastray
      have htake : (tokens.take (i + 1)).length = i + 1 := List.length_take_of_le hlt
      have hreadable : ∀ other ∈ sessions, other.logging = true →
          ∀ token ∈ tokens.take (i + 1), ¬token.value.Unreadable := by
        intro other hmem hlogging
        rw [hquiet other hmem] at hlogging
        cases hlogging
      obtain ⟨history, hrun, hsource, hhanded⟩ := @History.exists_run?_calls start _ _ sessions
        (Rest.eof?_ofList tokens) hlist (hlength.trans htake.symm) hreadable
      refine ⟨history, hrun, hhanded, ?_⟩
      rw [hsource, Source.cursor, Source.past, List.length_append, List.length_reverse, htake]
      rfl
    · obtain ⟨history, hrun, hcursor⟩ := History.exists_run?_calls_of_unreadable
        hthere hunreadable hbefore (Nat.zero_le i) hlogging
      exact ⟨history, hrun, by rw [hcursor]; exact congrArg (min · i) (Nat.zero_add _)⟩
    · intro turns history hlogging hrun
      exact History.cursor_le_of_unreadable hthere hunreadable (Nat.zero_le i) hlogging hrun

/-- A source is opened over a word, and it is recorded and replaced by the recording. -/
def recordingCommands : List Command :=
  [.makeToken (some "t") ⟨1⟩ (some "a") {}, .openSource "s" "unit" ["t"] none false,
    .next "s" none, .record "s" "s" "copy", .drain "s"]

theorem logging_unnoticed_recording :
    let loud : Workspace := { session := { logging := true } }
    let logging : Session := { logging := true, nextSerial := 10 }
    let start := History.ofSource
      (Source.withFactory History.astrayTokens "unit" ⟨0, .common false⟩ {}).1
    (loud.silent.replies recordingCommands = loud.replies recordingCommands ∧
      loud.silent.after recordingCommands = (loud.after recordingCommands).silent ∧
      (loud.after recordingCommands).session.log.size = 4) ∧
    (∃ history, start.run? (Turn.calls [{}, {}]) = some history ∧ history.source.cursor = 2) ∧
    ∃ history, start.run? (Turn.calls [logging, logging, logging]) = some history ∧
      history.source.cursor = 1 := by
  intro loud logging start
  obtain ⟨hunnoticed, hstopped⟩ := logging_unnoticed
  refine ⟨?_, ?_⟩
  · have hshown : ∀ workspace : Workspace, workspace.CanShow [] := by
      intro workspace name hmem
      cases hmem
    have hopened : loud.OpensLegibly recordingCommands := by
      refine ⟨hshown _, ?_, hshown _, hshown _, hshown _, trivial⟩
      intro name hmem token hget
      obtain rfl := List.mem_singleton.mp hmem
      cases hget
      exact fun h ↦ Option.some_ne_none _ h.1
    have hrecording := hunnoticed loud recordingCommands recordingCommands
      (fun source hmem ↦ by cases hmem) hopened (List.prefix_refl _)
    exact ⟨hrecording.replies_eq, hrecording.after_eq, by decide⟩
  · have hstops := hstopped History.astrayTokens "unit" ⟨0, .common false⟩ {} 1 _ rfl
      ⟨rfl, Option.some_ne_none _, maxSize, rfl, Nat.le_refl _⟩ (by
        intro j hj token hget
        obtain rfl := Nat.lt_one_iff.mp hj
        cases hget
        exact fun h ↦ Option.some_ne_none _ h.1)
    obtain ⟨history, hrun, -, hcursor⟩ := hstops.passes [{}, {}] (by decide) rfl
    exact ⟨⟨history, hrun, hcursor⟩, hstops.stops [logging, logging, logging] (by decide)⟩

end TokenReplay
