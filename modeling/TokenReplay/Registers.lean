/-!
# Registers

Names with a value each. Putting a value under a name that is in use replaces the old value, and a
name that is not in use has no value. There are never two values under one name, which matters to
whoever counts what the registers hold: what is replaced is gone.
-/

namespace TokenReplay

/-- Values under names. -/
structure Registers (α : Type) where
  entries : List (String × α) := []
  distinct : (entries.map Prod.fst).Nodup := by exact List.nodup_nil

namespace Registers

variable {α : Type}

def get? (registers : Registers α) (name : String) : Option α :=
  registers.entries.lookup name

/-- The registers without `name`. -/
def erase (registers : Registers α) (name : String) : Registers α where
  entries := registers.entries.filter (·.1 ≠ name)
  distinct := registers.distinct.sublist (List.filter_sublist.map Prod.fst)

/-- The registers with `value` under `name`. -/
def put (registers : Registers α) (name : String) (value : α) : Registers α where
  entries := (name, value) :: (registers.erase name).entries
  distinct := by
    rw [List.map_cons, List.nodup_cons]
    exact ⟨by simp [erase], (registers.erase name).distinct⟩

/-- The values, in no particular order. -/
def values (registers : Registers α) : List α := registers.entries.map Prod.snd

@[simp] theorem get?_put_self (registers : Registers α) (name : String) (value : α) :
    (registers.put name value).get? name = some value := by
  simp [get?, put]

@[simp] theorem get?_erase_self (registers : Registers α) (name : String) :
    (registers.erase name).get? name = none := by
  refine List.lookup_eq_none_iff.2 fun entry hmem ↦ ?_
  have hne : entry.1 ≠ name := of_decide_eq_true (List.mem_filter.1 hmem).2
  exact bne_iff_ne.2 hne.symm

theorem mem_values_of_get? {registers : Registers α} {name : String} {value : α}
    (h : registers.get? name = some value) : value ∈ registers.values := by
  obtain ⟨before, after, hentries, -⟩ := List.lookup_eq_some_iff.1 h
  exact List.mem_map.2 ⟨(name, value), hentries ▸ List.mem_append_right _ List.mem_cons_self, rfl⟩

theorem mem_values_of_mem_erase {registers : Registers α} {name : String} {value : α}
    (h : value ∈ (registers.erase name).values) : value ∈ registers.values := by
  obtain ⟨entry, hmem, rfl⟩ := List.mem_map.1 h
  exact List.mem_map_of_mem (List.mem_filter.1 hmem).1

theorem eq_or_mem_of_mem_values_put {registers : Registers α} {name : String} {value other : α}
    (h : other ∈ (registers.put name value).values) : other = value ∨ other ∈ registers.values :=
  (List.mem_cons.1 h).imp_right mem_values_of_mem_erase

/-- Taking a name out loses exactly the value under it. -/
theorem perm_values_erase {registers : Registers α} {name : String} {value : α}
    (h : registers.get? name = some value) :
    registers.values.Perm (value :: (registers.erase name).values) := by
  obtain ⟨entries, distinct⟩ := registers
  unfold get? at h
  unfold values erase
  dsimp only at h ⊢
  induction entries with
  | nil => simp at h
  | cons entry entries ih =>
    obtain ⟨key, first⟩ := entry
    rw [List.map_cons, List.nodup_cons] at distinct
    by_cases hkey : name = key
    · subst hkey
      rw [List.lookup_cons_self, Option.some.injEq] at h
      subst h
      have hfilter : entries.filter (·.1 ≠ name) = entries := by
        refine List.filter_eq_self.2 fun entry hmem ↦ decide_eq_true ?_
        rintro rfl
        exact distinct.1 (List.mem_map.2 ⟨entry, hmem, rfl⟩)
      rw [List.filter_cons_of_neg (by simp), hfilter, List.map_cons]
    · have hne : (name == key) = false := by simpa using hkey
      rw [List.lookup_cons, hne] at h
      rw [List.filter_cons_of_pos (by simpa using Ne.symm hkey), List.map_cons, List.map_cons]
      exact ((ih distinct.2 h).cons first).trans (List.Perm.swap value first _)

theorem erase_of_get?_eq_none {registers : Registers α} {name : String}
    (h : registers.get? name = none) : (registers.erase name).entries = registers.entries := by
  refine List.filter_eq_self.2 fun entry hmem ↦ decide_eq_true ?_
  rintro rfl
  simpa using List.lookup_eq_none_iff.1 h entry hmem

theorem perm_values (registers : Registers α) (name : String) :
    registers.values.Perm ((registers.get? name).toList ++ (registers.erase name).values) := by
  cases h : registers.get? name with
  | none =>
    rw [Option.toList_none, List.nil_append, values, values, erase_of_get?_eq_none h]
  | some value => exact perm_values_erase h

theorem mem_values_iff {registers : Registers α} {value : α} :
    value ∈ registers.values ↔ ∃ name, registers.get? name = some value := by
  refine ⟨fun h ↦ ?_, fun ⟨name, h⟩ ↦ mem_values_of_get? h⟩
  obtain ⟨⟨name, found⟩, hmem, rfl⟩ := List.mem_map.1 h
  refine ⟨name, ?_⟩
  obtain ⟨before, after, hentries⟩ := List.append_of_mem hmem
  refine List.lookup_eq_some_iff.2 ⟨before, after, hentries, fun entry hentry ↦ ?_⟩
  -- The name stands once among the names, so no entry before has it.
  have hdistinct := registers.distinct
  rw [hentries, List.map_append, List.map_cons, List.nodup_append] at hdistinct
  exact bne_iff_ne.2
    (hdistinct.2.2 _ (List.mem_map_of_mem hentry) name List.mem_cons_self).symm

end Registers

end TokenReplay
