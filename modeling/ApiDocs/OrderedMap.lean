/-!
# Insertion-ordered maps

A text-keyed map that lists its keys in the order in which they first arrived. Writing a key
that is already present keeps its place and replaces its value; erasing a key keeps the order
of the others. Properties, schemas, paths and JSON objects are all such maps.
-/
namespace ApiDocs

/-- A map from text to values, in order of first insertion. -/
structure OrderedMap (α : Type) where
  entries : List (String × α) := []
deriving Repr, BEq, DecidableEq, Inhabited

namespace OrderedMap

variable {α β : Type}

def keys (m : OrderedMap α) : List String :=
  m.entries.map Prod.fst

/-- The values, in the order of their keys. -/
def values (m : OrderedMap α) : List α :=
  m.entries.map Prod.snd

def size (m : OrderedMap α) : Nat :=
  m.entries.length

def isEmpty (m : OrderedMap α) : Bool :=
  m.entries.isEmpty

/-- No key is listed twice. Every map built by the operations below is distinct. -/
def Distinct (m : OrderedMap α) : Prop :=
  m.keys.Nodup

/-- The value of the first entry under `key` in a list of entries. -/
def find? (key : String) : List (String × α) → Option α
  | [] => none
  | (k, v) :: rest => if k = key then some v else find? key rest

def get? (m : OrderedMap α) (key : String) : Option α :=
  find? key m.entries

def contains (m : OrderedMap α) (key : String) : Bool :=
  (m.get? key).isSome

/-- Apply `f` to the value under `key`, in place; an absent key goes to the end. -/
def upsertIn (key : String) (f : Option α → α) : List (String × α) → List (String × α)
  | [] => [(key, f none)]
  | (k, v) :: rest => if k = key then (k, f (some v)) :: rest else (k, v) :: upsertIn key f rest

/-- Write the value that `f` makes of the present one. -/
def upsert (m : OrderedMap α) (key : String) (f : Option α → α) : OrderedMap α :=
  ⟨upsertIn key f m.entries⟩

/-- Write a value: a present key keeps its place, a new key goes to the end. -/
def insert (m : OrderedMap α) (key : String) (value : α) : OrderedMap α :=
  m.upsert key fun _ => value

/-- Remove a key and keep the order of the others. -/
def erase (m : OrderedMap α) (key : String) : OrderedMap α :=
  ⟨m.entries.filter fun e => e.1 ≠ key⟩

/-- Write every entry of a list, first to last. -/
def insertAll (m : OrderedMap α) (entries : List (String × α)) : OrderedMap α :=
  entries.foldl (fun m e => m.insert e.1 e.2) m

/-- The map that the entries build when written one after another. -/
def ofList (entries : List (String × α)) : OrderedMap α :=
  insertAll {} entries

/-- Keep the entries whose key passes a test. -/
def filterKeys (m : OrderedMap α) (keep : String → Bool) : OrderedMap α :=
  ⟨m.entries.filter fun e => keep e.1⟩

def mapValues (f : α → β) (m : OrderedMap α) : OrderedMap β :=
  ⟨m.entries.map fun e => (e.1, f e.2)⟩

theorem mem_keys_of_find? {key : String} {v : α} :
    ∀ {entries : List (String × α)}, find? key entries = some v → key ∈ entries.map Prod.fst
  | [], h => by simp [find?] at h
  | (k, w) :: rest, h => by
    simp only [find?] at h
    split at h
    · simp_all
    · exact List.mem_cons_of_mem _ (mem_keys_of_find? h)

theorem mem_keys_of_get? {m : OrderedMap α} {key : String} {v : α} (h : m.get? key = some v) :
    key ∈ m.keys :=
  mem_keys_of_find? h

/-- Writing changes what is found under the key and nothing else. -/
theorem find?_upsertIn (key k : String) (f : Option α → α) (entries : List (String × α)) :
    find? k (upsertIn key f entries) =
      if k = key then some (f (find? key entries)) else find? k entries := by
  induction entries with
  | nil =>
    by_cases h : k = key
    · simp [upsertIn, find?, h]
    · have h' : ¬ key = k := fun e => h e.symm
      simp [upsertIn, find?, h, h']
  | cons e rest ih =>
    obtain ⟨k', v⟩ := e
    by_cases h : k' = key
    · subst h
      by_cases hk : k = k'
      · subst hk
        simp [upsertIn, find?]
      · have hk' : ¬ k' = k := fun e => hk e.symm
        simp [upsertIn, find?, hk, hk']
    · by_cases hk : k' = k
      · subst hk
        simp [upsertIn, find?, h]
      · simp [upsertIn, find?, h, hk, ih]

/-- A present key keeps its place, a new one goes to the end. -/
theorem keys_upsertIn (key : String) (f : Option α → α) (entries : List (String × α)) :
    (upsertIn key f entries).map Prod.fst =
      if key ∈ entries.map Prod.fst then entries.map Prod.fst
      else entries.map Prod.fst ++ [key] := by
  induction entries with
  | nil => simp [upsertIn]
  | cons e rest ih =>
    obtain ⟨k, v⟩ := e
    by_cases h : k = key
    · simp [upsertIn, h]
    · have h' : ¬ key = k := fun e => h e.symm
      simp only [upsertIn, h, if_false, List.map_cons, ih, List.mem_cons, h', false_or]
      split <;> simp

theorem get?_upsert (m : OrderedMap α) (key k : String) (f : Option α → α) :
    (m.upsert key f).get? k = if k = key then some (f (m.get? key)) else m.get? k :=
  find?_upsertIn key k f m.entries

theorem get?_insert (m : OrderedMap α) (key k : String) (value : α) :
    (m.insert key value).get? k = if k = key then some value else m.get? k :=
  get?_upsert m key k fun _ => value

theorem keys_upsert (m : OrderedMap α) (key : String) (f : Option α → α) :
    (m.upsert key f).keys = if key ∈ m.keys then m.keys else m.keys ++ [key] :=
  keys_upsertIn key f m.entries

theorem Distinct.upsert {m : OrderedMap α} (h : m.Distinct) (key : String) (f : Option α → α) :
    (m.upsert key f).Distinct := by
  unfold Distinct
  rw [keys_upsert]
  split
  · exact h
  · rename_i hkey
    refine List.nodup_append.mpr ⟨h, by simp, ?_⟩
    intro a ha b hb
    obtain rfl := List.mem_singleton.mp hb
    intro hab
    exact hkey (hab ▸ ha)

end OrderedMap
end ApiDocs
