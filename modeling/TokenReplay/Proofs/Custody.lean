import TokenReplay.Proofs.Commands
import TokenReplay.Proofs.History

/-!
# Who holds a source id

The handles of a workspace are a bag that is kept by hand: each time something is put into a
register or taken out of one, the bag is brought up to date. Here it is shown that the bag holds
what the registers hold, each id as often as it is held (`Workspace.Sound`), whichever way the
registers change.

There are four ways: a source or a source id is put under a name, or one is taken out. In each of
them the holders lose what was under the name, if anything was, and gain what is put there. The bag
does the same in another order, since a new holder takes hold before the old one lets go.

## Old and new

Ids come from the supply of serials, so an id that nobody has held before has a higher serial than
all that were held so far. `Workspace.Leads` says of two workspaces that the second one has no ids
but those of the first and new ones in this sense. This is what keeps apart ids from different
times: an id that is gone cannot come back, and no other id has its key.
-/

namespace TokenReplay

namespace Workspace

variable {workspace : Workspace}

/-! ## Holders -/

/-- The ids that are held in registers, each as often as it is held: by a source that has the id, or
by a handle on it. -/
def holders (workspace : Workspace) : List SourceId :=
  workspace.sourceIds.values ++ workspace.sources.values.map Source.id

/-- Somebody holds `id`: a handle or the source itself. -/
def Holds (workspace : Workspace) (id : SourceId) : Prop :=
  (∃ name, workspace.sourceIds.get? name = some id) ∨
    ∃ name source, workspace.sources.get? name = some source ∧ source.id = id

theorem holds_iff {id : SourceId} : workspace.Holds id ↔ id ∈ workspace.holders := by
  rw [holders, List.mem_append, Registers.mem_values_iff, List.mem_map, Holds]
  refine or_congr_right ⟨?_, ?_⟩
  · rintro ⟨name, source, hget, hid⟩
    exact ⟨source, Registers.mem_values_of_get? hget, hid⟩
  · rintro ⟨source, hmem, hid⟩
    obtain ⟨name, hget⟩ := Registers.mem_values_iff.mp hmem
    exact ⟨name, source, hget, hid⟩

/-- The handles are those of the holders, and ids are told apart by their keys. No two sources have
the same id. -/
structure Sound (workspace : Workspace) : Prop where
  held_perm : workspace.handles.held.Perm workspace.holders
  serial_lt : ∀ id ∈ workspace.holders, id.key.serial < workspace.session.nextSerial
  key_inj : ∀ id ∈ workspace.holders, ∀ other ∈ workspace.holders,
    id.key = other.key → id = other
  nodup : (workspace.sources.values.map Source.id).Nodup

theorem sound_of_session (session : Session) : Sound { session := session } := by
  refine ⟨List.Perm.nil, ?_, ?_, List.nodup_nil⟩
  · intro id hmem
    cases hmem
  · intro id hmem
    cases hmem

theorem Sound.nameOf?_eq_some_iff (h : workspace.Sound) {id : SourceId}
    (hkey : ∀ other ∈ workspace.holders, other.key = id.key → other = id) :
    workspace.handles.nameOf? id.key = some id.name ↔ workspace.Holds id := by
  rw [holds_iff, Handles.nameOf?, Option.map_eq_some_iff]
  constructor
  · rintro ⟨found, hfound, -⟩
    obtain ⟨hheld, hsame⟩ := Handles.mem_held_of_find? hfound
    have hmem := h.held_perm.mem_iff.mp hheld
    rwa [hkey found hmem hsame] at hmem
  · intro hmem
    cases hfind : workspace.handles.find? id.key with
    | none =>
      exact absurd rfl (Handles.find?_eq_none_iff.mp hfind id (h.held_perm.mem_iff.mpr hmem))
    | some found =>
      obtain ⟨hheld, hsame⟩ := Handles.mem_held_of_find? hfind
      refine ⟨found, rfl, ?_⟩
      rw [hkey found (h.held_perm.mem_iff.mp hheld) hsame]

theorem Sound.nameOf?_eq_none_iff (h : workspace.Sound) {id : SourceId}
    (hkey : ∀ other ∈ workspace.holders, other.key = id.key → other = id) :
    workspace.handles.nameOf? id.key = none ↔ ¬workspace.Holds id := by
  rw [holds_iff, Handles.nameOf?, Option.map_eq_none_iff, Handles.find?_eq_none_iff]
  constructor
  · intro hnone hmem
    exact hnone id (h.held_perm.mem_iff.mpr hmem) rfl
  · intro hmem found hheld hsame
    have hfound := h.held_perm.mem_iff.mp hheld
    rw [hkey found hfound hsame] at hfound
    exact hmem hfound

/-! ## The bag -/

theorem held_releaseOld {handles : Handles} {old : Option SourceId} {others : List SourceId}
    (h : handles.held.Perm (old.toList ++ others)) : (releaseOld handles old).held.Perm others := by
  cases old with
  | none => exact h
  | some id =>
    have hmem : id ∈ handles.held := h.mem_iff.mpr List.mem_cons_self
    exact ((Handles.perm_held_release hmem).symm.trans h).cons_inv

/-- Taking hold before the old holder lets go. -/
theorem held_hold_releaseOld {handles : Handles} {old : Option SourceId} {others : List SourceId}
    (h : handles.held.Perm (old.toList ++ others)) (id : SourceId) :
    (releaseOld (handles.hold id) old).held.Perm (id :: others) :=
  held_releaseOld ((h.cons id).trans List.perm_middle.symm)

section Names

variable (workspace) (name : String)

/-- The holders apart from a source under `name`. -/
def withoutSource : List SourceId :=
  workspace.sourceIds.values ++ (workspace.sources.erase name).values.map Source.id

/-- The holders apart from a handle under `name`. -/
def withoutSourceId : List SourceId :=
  (workspace.sourceIds.erase name).values ++ workspace.sources.values.map Source.id

theorem perm_holders_source : workspace.holders.Perm
    (((workspace.sources.get? name).map Source.id).toList ++ workspace.withoutSource name) := by
  have hvalues := (workspace.sources.perm_values name).map Source.id
  rw [List.map_append] at hvalues
  have hold : (workspace.sources.get? name).toList.map Source.id =
      ((workspace.sources.get? name).map Source.id).toList := by
    cases workspace.sources.get? name <;> rfl
  rw [hold] at hvalues
  exact (hvalues.append_left _).trans (List.perm_append_comm_assoc _ _ _)

theorem perm_holders_sourceId : workspace.holders.Perm
    ((workspace.sourceIds.get? name).toList ++ workspace.withoutSourceId name) := by
  have hvalues := (workspace.sourceIds.perm_values name).append_right
    (workspace.sources.values.map Source.id)
  rwa [List.append_assoc] at hvalues

theorem holders_storeSource_perm (source : Source) :
    (workspace.storeSource name source).holders.Perm
      (source.id :: workspace.withoutSource name) := List.perm_middle

theorem holders_storeSourceId (id : SourceId) :
    (workspace.storeSourceId name id).holders = id :: workspace.withoutSourceId name := rfl

theorem holders_dropSource :
    (workspace.dropSource name).holders = workspace.withoutSource name := rfl

theorem holders_dropSourceId :
    (workspace.dropSourceId name).holders = workspace.withoutSourceId name := rfl

end Names

theorem mem_holders_of_mem_withoutSource {name : String} {id : SourceId}
    (h : id ∈ workspace.withoutSource name) : id ∈ workspace.holders :=
  (workspace.perm_holders_source name).mem_iff.mpr (List.mem_append_right _ h)

theorem mem_holders_of_mem_withoutSourceId {name : String} {id : SourceId}
    (h : id ∈ workspace.withoutSourceId name) : id ∈ workspace.holders :=
  (workspace.perm_holders_sourceId name).mem_iff.mpr (List.mem_append_right _ h)

theorem mem_holders_storeSource {name : String} {source : Source} {id : SourceId}
    (h : id ∈ (workspace.storeSource name source).holders) :
    id = source.id ∨ id ∈ workspace.holders :=
  (List.mem_cons.mp ((workspace.holders_storeSource_perm name source).mem_iff.mp h)).imp_right
    mem_holders_of_mem_withoutSource

theorem mem_holders_storeSourceId {name : String} {id other : SourceId}
    (h : other ∈ (workspace.storeSourceId name id).holders) :
    other = id ∨ other ∈ workspace.holders := by
  rw [holders_storeSourceId] at h
  exact (List.mem_cons.mp h).imp_right mem_holders_of_mem_withoutSourceId

/-! ## The four changes -/

/-- `id` can be held: its serial was given out, and no other id that is held has its key. -/
structure Admits (workspace : Workspace) (id : SourceId) : Prop where
  serial_lt : id.key.serial < workspace.session.nextSerial
  key_inj : ∀ other ∈ workspace.holders, other.key = id.key → other = id

theorem Sound.admits (h : workspace.Sound) {id : SourceId} (hmem : id ∈ workspace.holders) :
    workspace.Admits id :=
  ⟨h.serial_lt id hmem, fun other hother hkey ↦ h.key_inj other hother id hmem hkey⟩

/-- The bag aside, a workspace stays sound if no ids come to its holders but one that it admits. -/
theorem Sound.of_subset (h : workspace.Sound) {id : SourceId} (hadmits : workspace.Admits id)
    {later : Workspace} (hserial : later.session.nextSerial = workspace.session.nextSerial)
    (hsubset : ∀ other ∈ later.holders, other = id ∨ other ∈ workspace.holders)
    (hheld : later.handles.held.Perm later.holders)
    (hnodup : (later.sources.values.map Source.id).Nodup) : later.Sound := by
  refine ⟨hheld, fun other hmem ↦ ?_, fun first hfirst second hsecond hkey ↦ ?_, hnodup⟩
  · rw [hserial]
    rcases hsubset other hmem with rfl | hmem
    · exact hadmits.serial_lt
    · exact h.serial_lt other hmem
  · rcases hsubset first hfirst with rfl | hfirst <;>
      rcases hsubset second hsecond with rfl | hsecond
    · rfl
    · exact (hadmits.key_inj second hsecond hkey.symm).symm
    · exact hadmits.key_inj first hfirst hkey
    · exact h.key_inj first hfirst second hsecond hkey

theorem Sound.nodup_erase (h : workspace.Sound) (name : String) :
    ((workspace.sources.erase name).values.map Source.id).Nodup := by
  have hnodup := ((workspace.sources.perm_values name).map Source.id).nodup_iff.mp h.nodup
  rw [List.map_append, List.nodup_append] at hnodup
  exact hnodup.2.1

theorem Sound.storeSource (h : workspace.Sound) {name : String} {source : Source}
    (hadmits : workspace.Admits source.id)
    (hother : source.id ∉ (workspace.sources.erase name).values.map Source.id) :
    (workspace.storeSource name source).Sound := by
  have hheld := held_hold_releaseOld (h.held_perm.trans (workspace.perm_holders_source name))
    source.id
  exact h.of_subset hadmits rfl (fun _ ↦ mem_holders_storeSource)
    (hheld.trans (workspace.holders_storeSource_perm name source).symm)
    (List.nodup_cons.mpr ⟨hother, h.nodup_erase name⟩)

theorem Sound.storeSourceId (h : workspace.Sound) {name : String} {id : SourceId}
    (hadmits : workspace.Admits id) : (workspace.storeSourceId name id).Sound := by
  have hheld := held_hold_releaseOld (h.held_perm.trans (workspace.perm_holders_sourceId name)) id
  rw [← holders_storeSourceId] at hheld
  exact h.of_subset hadmits rfl (fun _ ↦ mem_holders_storeSourceId) hheld h.nodup

theorem Sound.dropSource (h : workspace.Sound) (name : String) :
    (workspace.dropSource name).Sound := by
  have hheld := held_releaseOld (h.held_perm.trans (workspace.perm_holders_source name))
  rw [← holders_dropSource] at hheld
  refine ⟨hheld, ?_, ?_, h.nodup_erase name⟩
  · exact fun id hmem ↦ h.serial_lt id (mem_holders_of_mem_withoutSource hmem)
  · exact fun id hmem other hother ↦ h.key_inj id (mem_holders_of_mem_withoutSource hmem) other
      (mem_holders_of_mem_withoutSource hother)

theorem Sound.dropSourceId (h : workspace.Sound) (name : String) :
    (workspace.dropSourceId name).Sound := by
  have hheld := held_releaseOld (h.held_perm.trans (workspace.perm_holders_sourceId name))
  rw [← holders_dropSourceId] at hheld
  refine ⟨hheld, ?_, ?_, h.nodup⟩
  · exact fun id hmem ↦ h.serial_lt id (mem_holders_of_mem_withoutSourceId hmem)
  · exact fun id hmem other hother ↦ h.key_inj id (mem_holders_of_mem_withoutSourceId hmem) other
      (mem_holders_of_mem_withoutSourceId hother)

/-! ## From one workspace to a later one -/

/-- `later` is sound, and apart from new ids it has only ids and sources that were there. -/
structure Leads (workspace later : Workspace) : Prop where
  sound : later.Sound
  nextSerial_le : workspace.session.nextSerial ≤ later.session.nextSerial
  new : ∀ id ∈ later.holders, id ∈ workspace.holders ∨ workspace.session.nextSerial ≤ id.key.serial
  /-- A source that was there is over the same list as it was then. -/
  sources : ∀ source ∈ later.sources.values,
    (∃ old ∈ workspace.sources.values, old.id = source.id ∧ old.tokens = source.tokens) ∨
      workspace.session.nextSerial ≤ source.id.key.serial

theorem Sound.leads_self (h : workspace.Sound) : workspace.Leads workspace :=
  ⟨h, Nat.le_refl _, fun _ ↦ .inl, fun source hmem ↦ .inl ⟨source, hmem, rfl, rfl⟩⟩

theorem Leads.trans {middle later : Workspace} (h : workspace.Leads middle)
    (hlater : middle.Leads later) : workspace.Leads later := by
  refine ⟨hlater.sound, Nat.le_trans h.nextSerial_le hlater.nextSerial_le, fun id hmem ↦ ?_,
    fun source hmem ↦ ?_⟩
  · rcases hlater.new id hmem with hmem | hle
    · exact h.new id hmem
    · exact .inr (Nat.le_trans h.nextSerial_le hle)
  · rcases hlater.sources source hmem with ⟨old, hold, hid, htokens⟩ | hle
    · rcases h.sources old hold with ⟨first, hfirst, hfirstId, hfirstTokens⟩ | hle
      · exact .inl ⟨first, hfirst, hfirstId.trans hid, hfirstTokens.trans htokens⟩
      · rw [hid] at hle
        exact .inr hle
    · exact .inr (Nat.le_trans h.nextSerial_le hle)

/-- An id that was held once is told apart by its key ever after. -/
theorem Leads.eq_of_key_eq {later : Workspace} (h : workspace.Leads later)
    (hsound : workspace.Sound) {id : SourceId} (hid : id ∈ workspace.holders) {other : SourceId}
    (hother : other ∈ later.holders) (hkey : other.key = id.key) : other = id := by
  rcases h.new other hother with hmem | hle
  · exact hsound.key_inj other hmem id hid hkey
  · rw [hkey] at hle
    exact absurd (hsound.serial_lt id hid) (Nat.not_lt_of_le hle)

/-- An id that nobody holds any more is gone for good. -/
theorem Leads.not_holds {middle later : Workspace} (h : workspace.Leads middle)
    (hlater : middle.Leads later) (hsound : workspace.Sound) {id : SourceId}
    (hid : id ∈ workspace.holders) (hgone : id ∉ middle.holders) : id ∉ later.holders := by
  intro hmem
  rcases hlater.new id hmem with hmem | hle
  · exact hgone hmem
  · have hlt := Nat.lt_of_lt_of_le (hsound.serial_lt id hid) h.nextSerial_le
    exact Nat.not_lt_of_le hle hlt

end Workspace

end TokenReplay
