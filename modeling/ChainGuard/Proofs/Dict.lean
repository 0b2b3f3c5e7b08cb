import ChainGuard.Dict

/-!
# Looking up and setting entries

What `Dict.set` does to the values and to the keys of a dictionary: it changes the value of its own
key only, it keeps the order of the keys, and it never makes a key appear twice. `Dict.replace` does
nothing for a key that is not there, so replacing at different keys commutes.
-/

namespace ChainGuard.Dict

variable {α β : Type}

/-! ## Values -/

@[simp]
theorem get?_nil (key : String) : get? ([] : Dict α) key = none := rfl

theorem get?_cons (k : String) (v : α) (rest : Dict α) (key : String) :
    get? ((k, v) :: rest) key = if key = k then some v else get? rest key := by
  unfold get?
  rw [List.lookup_cons]
  by_cases h : key = k
  · simp [h]
  · have hb : (key == k) = false := by simpa using h
    rw [hb, if_neg h]

@[simp]
theorem get?_set_self (d : Dict α) (key : String) (value : α) :
    (d.set key value).get? key = some value := by
  induction d with
  | nil => simp [set, get?_cons]
  | cons entry rest ih =>
    obtain ⟨k, v⟩ := entry
    rw [set]
    split
    · next h => simp [get?_cons, h]
    · next h => rw [get?_cons, if_neg (Ne.symm h), ih]

theorem get?_set_of_ne {d : Dict α} {key other : String} {value : α} (h : other ≠ key) :
    (d.set key value).get? other = d.get? other := by
  induction d with
  | nil => simp [set, get?_cons, h]
  | cons entry rest ih =>
    obtain ⟨k, v⟩ := entry
    rw [set]
    split
    · next hk => subst hk; simp [get?_cons, h]
    · rw [get?_cons, get?_cons, ih]

theorem mem_of_get? {d : Dict α} {key : String} {value : α} (h : d.get? key = some value) :
    (key, value) ∈ d := by
  induction d with
  | nil => simp at h
  | cons entry rest ih =>
    obtain ⟨k, v⟩ := entry
    rw [get?_cons] at h
    split at h
    · next hk => cases h; subst hk; exact List.mem_cons_self
    · exact List.mem_cons_of_mem _ (ih h)

/-! ## Keys -/

@[simp]
theorem keys_cons (entry : String × α) (rest : Dict α) :
    keys (entry :: rest) = entry.1 :: keys rest := rfl

theorem mem_keys_of_mem {d : Dict α} {key : String} {value : α} (h : (key, value) ∈ d) :
    key ∈ d.keys :=
  List.mem_map_of_mem h

theorem keys_mapValues {β : Type} (f : α → β) (d : Dict α) : (d.mapValues f).keys = d.keys :=
  List.map_map

theorem mem_keys_of_get? {d : Dict α} {key : String} {value : α} (h : d.get? key = some value) :
    key ∈ d.keys :=
  mem_keys_of_mem (mem_of_get? h)

theorem keys_set_of_mem {d : Dict α} {key : String} {value : α} (h : key ∈ d.keys) :
    (d.set key value).keys = d.keys := by
  induction d with
  | nil => simp [keys] at h
  | cons entry rest ih =>
    obtain ⟨k, v⟩ := entry
    rw [set]
    split
    · rfl
    · next hk =>
      rw [keys_cons, keys_cons] at *
      rw [ih ((List.mem_cons.mp h).resolve_left (Ne.symm hk))]

/-- Setting a new key puts it at the end. -/
theorem keys_set_of_not_mem {d : Dict α} {key : String} {value : α} (h : key ∉ d.keys) :
    (d.set key value).keys = d.keys ++ [key] := by
  induction d with
  | nil => rfl
  | cons entry rest ih =>
    obtain ⟨k, v⟩ := entry
    rw [keys_cons, List.mem_cons, not_or] at h
    rw [set, if_neg (Ne.symm h.1), keys_cons, keys_cons, ih h.2, List.cons_append]

theorem mem_keys_set {d : Dict α} {key other : String} {value : α} :
    other ∈ (d.set key value).keys ↔ other ∈ d.keys ∨ other = key := by
  by_cases hk : key ∈ d.keys
  · rw [keys_set_of_mem hk, or_iff_left_of_imp]
    rintro rfl
    exact hk
  · rw [keys_set_of_not_mem hk, List.mem_append, List.mem_singleton]

theorem nodup_keys_set {d : Dict α} {key : String} {value : α} (h : d.keys.Nodup) :
    (d.set key value).keys.Nodup := by
  by_cases hk : key ∈ d.keys
  · rwa [keys_set_of_mem hk]
  · rw [keys_set_of_not_mem hk, List.nodup_append]
    refine ⟨h, by simp, ?_⟩
    intro a ha b hb hab
    rw [List.mem_singleton] at hb
    exact hk (hb ▸ hab ▸ ha)

theorem set_of_not_mem {d : Dict α} {key : String} (h : key ∉ d.keys) (value : α) :
    d.set key value = d ++ [(key, value)] := by
  induction d with
  | nil => rfl
  | cons entry rest ih =>
    obtain ⟨k, v⟩ := entry
    rw [keys_cons, List.mem_cons, not_or] at h
    rw [set, if_neg (Ne.symm h.1), ih h.2, List.cons_append]

/-- Entries with new and distinct keys go to the end. -/
theorem update_of_nodup {d : Dict α} {entries : List (String × α)}
    (h : (keys (d ++ entries)).Nodup) : d.update entries = d ++ entries := by
  induction entries generalizing d with
  | nil => exact (List.append_nil d).symm
  | cons entry rest ih =>
    have hsplit : d ++ entry :: rest = (d ++ [entry]) ++ rest := by
      rw [List.append_assoc, List.singleton_append]
    have hfresh : entry.1 ∉ d.keys := by
      rw [keys, List.map_append, List.nodup_append] at h
      exact fun hmem => h.2.2 _ hmem _ List.mem_cons_self rfl
    rw [hsplit] at h ⊢
    rw [← ih h, ← set_of_not_mem hfresh]
    rfl

theorem ofPairs_of_nodup {entries : List (String × α)} (h : (keys entries).Nodup) :
    ofPairs entries = entries := by
  have hempty : (keys ([] ++ entries)).Nodup := h
  exact update_of_nodup hempty

/-- With distinct keys, an entry is what its key stands for. -/
theorem get?_of_mem {d : Dict α} (hd : d.keys.Nodup) {key : String} {value : α}
    (h : (key, value) ∈ d) : d.get? key = some value := by
  induction d with
  | nil => simp at h
  | cons entry rest ih =>
    obtain ⟨k, v⟩ := entry
    rw [keys_cons, List.nodup_cons] at hd
    rw [get?_cons]
    cases h with
    | head => exact if_pos rfl
    | tail _ h =>
      have hne : key ≠ k := fun he => hd.1 (he ▸ mem_keys_of_mem h)
      rw [if_neg hne]
      exact ih hd.2 h

theorem get?_eq_some_iff_mem {d : Dict α} (hd : d.keys.Nodup) {key : String} {value : α} :
    d.get? key = some value ↔ (key, value) ∈ d :=
  ⟨mem_of_get?, get?_of_mem hd⟩

theorem exists_get?_of_mem_keys {d : Dict α} {key : String} (h : key ∈ d.keys) :
    ∃ value, d.get? key = some value := by
  induction d with
  | nil => cases h
  | cons entry rest ih =>
    obtain ⟨k, v⟩ := entry
    rw [get?_cons]
    split
    · exact ⟨v, rfl⟩
    · next hne => exact ih ((List.mem_cons.mp h).resolve_left hne)

/-- A value after further entries were set is an old one, or that of one of the entries. -/
theorem get?_update_cases {d : Dict α} {entries : List (String × α)} {key : String} {value : α}
    (h : (d.update entries).get? key = some value) :
    d.get? key = some value ∨ (key, value) ∈ entries := by
  induction entries generalizing d with
  | nil => exact .inl h
  | cons entry rest ih =>
    obtain ⟨k, v⟩ := entry
    rcases ih h with hset | hmem
    · by_cases hk : key = k
      · rw [hk, get?_set_self] at hset
        cases hset
        exact .inr (hk ▸ List.mem_cons_self)
      · rw [get?_set_of_ne hk] at hset
        exact .inl hset
    · exact .inr (List.mem_cons_of_mem _ hmem)

theorem mem_of_get?_ofPairs {entries : List (String × α)} {key : String} {value : α}
    (h : (ofPairs entries).get? key = some value) : (key, value) ∈ entries :=
  (get?_update_cases h).resolve_left fun hnil => nomatch hnil

/-! ## Replacing -/

/-- The dictionary with another value for `key`, if it has one. -/
def replace : Dict α → String → α → Dict α
  | [], _, _ => []
  | (k, v) :: rest, key, value =>
    if k = key then (k, value) :: rest else (k, v) :: replace rest key value

theorem set_eq_replace {d : Dict α} {key : String} (h : key ∈ d.keys) (value : α) :
    d.set key value = d.replace key value := by
  induction d with
  | nil => simp [keys] at h
  | cons entry rest ih =>
    obtain ⟨k, v⟩ := entry
    rw [set, replace]
    split
    · rfl
    · next hk => rw [ih ((List.mem_cons.mp h).resolve_left (Ne.symm hk))]

theorem get?_replace (d : Dict α) (key other : String) (value : α) :
    (d.replace key value).get? other =
      if other = key then (d.get? key).map fun _ => value else d.get? other := by
  induction d with
  | nil => simp [replace]
  | cons entry rest ih =>
    obtain ⟨k, v⟩ := entry
    rw [replace]
    split
    · next hk =>
      subst hk
      rw [get?_cons, get?_cons, get?_cons, if_pos rfl]
      by_cases hother : other = k
      · rw [if_pos hother, if_pos hother]
        rfl
      · rw [if_neg hother, if_neg hother, if_neg hother]
    · next hk =>
      rw [get?_cons, get?_cons, get?_cons, ih, if_neg (Ne.symm hk)]
      by_cases hother : other = k
      · rw [if_pos hother, if_neg (fun h => hk (hother ▸ h)), if_pos hother]
      · rw [if_neg hother, if_neg hother]

theorem replace_comm (d : Dict α) {key other : String} (h : key ≠ other) (value value' : α) :
    (d.replace key value).replace other value' = (d.replace other value').replace key value := by
  induction d with
  | nil => rfl
  | cons entry rest ih =>
    obtain ⟨k, v⟩ := entry
    by_cases hkey : k = key
    · subst hkey
      simp only [replace, if_pos, if_neg h]
    · by_cases hother : k = other
      · subst hother
        simp only [replace, if_pos, if_neg hkey]
      · simp only [replace, if_neg hkey, if_neg hother, ih]

end ChainGuard.Dict
