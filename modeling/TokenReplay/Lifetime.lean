import TokenReplay.Origin

/-!
# How long a source has a name

A source id lives as long as somebody holds it: the source itself, or whoever made the id or got
hold of it through a token. Holding is counted, so the same id may be held several times, and it is
gone when the last of them lets go.

Everything that is held is kept in one bag. Nothing else knows the names of sources, and so a token,
which has no more than a key, has a source name exactly as long as the id with that key is in the
bag.
-/

namespace TokenReplay

/-- The source ids that are held, each as many times as it is held. -/
structure Handles where
  held : List SourceId := []

namespace Handles

/-- One more holder of `id`. -/
def hold (handles : Handles) (id : SourceId) : Handles := ⟨id :: handles.held⟩

/-- One holder of `id` lets go. -/
def release (handles : Handles) (id : SourceId) : Handles := ⟨handles.held.erase id⟩

/-- The id with this key, while somebody holds it. -/
def find? (handles : Handles) (key : SourceKey) : Option SourceId :=
  handles.held.find? (·.key = key)

/-- The name of the source with this key, while somebody holds its id. -/
def nameOf? (handles : Handles) (key : SourceKey) : Option String :=
  (handles.find? key).map SourceId.name

theorem find?_eq_none_iff {handles : Handles} {key : SourceKey} :
    handles.find? key = none ↔ ∀ id ∈ handles.held, id.key ≠ key := by
  simp [find?]

theorem mem_held_of_find? {handles : Handles} {key : SourceKey} {id : SourceId}
    (h : handles.find? key = some id) : id ∈ handles.held ∧ id.key = key := by
  refine ⟨List.mem_of_find?_eq_some h, ?_⟩
  simpa using List.find?_some h

theorem perm_held_release {handles : Handles} {id : SourceId} (h : id ∈ handles.held) :
    handles.held.Perm (id :: (handles.release id).held) := List.perm_cons_erase h

end Handles

/-- The name of the source that a token came from, while that source is alive. -/
def Origin.sourceName? (origin : Origin) (handles : Handles) : Option String :=
  origin.source.bind handles.nameOf?

end TokenReplay
