import TreeArchive.Archive.Member
import TreeArchive.Failure

/-!
Nodes of a file tree. A directory holds its entries in the order in which the host lists them, the
newest first. A location is the list of names from a directory down. In a well-formed tree no
directory has two entries of one name, and every name is legal.
-/
namespace TreeArchive

abbrev Location := List Name

/-- The native absolute path of a location. -/
def Location.toPath (l : Location) : Path :=
  ⟨Path.slash :: Text.join Path.slash l⟩

/-- A file. `id` tells it from any other file that held its location earlier; `records` is what an
archive reader finds in it. -/
structure FileData where
  id : Nat
  mode : Nat
  content : Content
  records : Option (List Archive.Record)

/-- The owner may read the file. -/
def FileData.isReadable (data : FileData) : Bool :=
  data.mode / 0o400 % 2 == 1

/-- The mode of a directory is what opening it gives; the host lets the program list, search and
change every directory, so that no system call is refused for it. -/
inductive Node where
  | directory (mode : Nat) (entries : List (Name × Node))
  | file (data : FileData)
  | link (target : Path)
  | pipe

inductive Kind where
  | directory
  | file
  | link
  | pipe
deriving DecidableEq, Repr

def isLegalName (name : Name) : Bool :=
  !name.isEmpty && name != Path.dotName && name != Path.dotDotName && name.length ≤ 255 &&
    !name.contains Path.slash && !name.contains 0

namespace Node

def kind : Node → Kind
  | .directory .. => .directory
  | .file _ => .file
  | .link _ => .link
  | .pipe => .pipe

def size : Node → Nat
  | .file data => data.content.size
  | .link target => target.bytes.length
  | _ => 0

def entries : Node → List (Name × Node)
  | .directory _ entries => entries
  | _ => []

def child? (node : Node) (name : Name) : Option Node :=
  node.entries.lookup name

/-- The node at a location below this one. -/
def get? : Location → Node → Option Node
  | [], node => some node
  | name :: rest, node => (node.child? name).bind (get? rest)

mutual

/-- How many nodes below this one pass a test. -/
def count (test : Node → Bool) : Node → Nat
  | .directory _ entries => countIn test entries
  | _ => 0

def countIn (test : Node → Bool) : List (Name × Node) → Nat
  | [] => 0
  | (_, node) :: rest => (if test node then 1 else 0) + count test node + countIn test rest

end

mutual

/-- The length of the longest way down. -/
def height : Node → Nat
  | .directory _ entries => heightIn entries
  | _ => 0

def heightIn : List (Name × Node) → Nat
  | [] => 0
  | (_, node) :: rest => max (height node + 1) (heightIn rest)

end

mutual

/-- Everything below this node, at any depth. -/
def descendants : Node → List (Location × Node)
  | .directory _ entries => descendantsIn entries
  | _ => []

def descendantsIn : List (Name × Node) → List (Location × Node)
  | [] => []
  | (name, node) :: rest =>
    let deeper := (descendants node).map fun (l, node) => (name :: l, node)
    ([name], node) :: deeper ++ descendantsIn rest

end

/-- Sets, changes or takes away what a name stands for; a new name comes first. -/
def alterEntry (change : Option Node → Option Node) (name : Name) (entries : List (Name × Node)) :
    List (Name × Node) :=
  match entries.lookup name with
  | none => ((change none).map (name, ·)).toList ++ entries
  | some _ =>
    entries.filterMap fun e => if e.1 = name then (change (some e.2)).map (name, ·) else some e

/-- Sets, changes or takes away the node at a location below this one. Nothing happens where the
location is not in a directory. -/
def alter (change : Option Node → Option Node) : Location → Node → Node
  | [name], .directory mode entries => .directory mode (alterEntry change name entries)
  | name :: rest, .directory mode entries =>
    .directory mode (alterEntry (Option.map (alter change rest)) name entries)
  | _, node => node

inductive WellFormed : Node → Prop where
  | directory {mode : Nat} {entries : List (Name × Node)}
      (distinct : (entries.map Prod.fst).Nodup)
      (legal : ∀ name ∈ entries.map Prod.fst, isLegalName name = true)
      (inner : ∀ name node, (name, node) ∈ entries → WellFormed node) :
      WellFormed (.directory mode entries)
  | file (data : FileData) : WellFormed (.file data)
  | link (target : Path) : WellFormed (.link target)
  | pipe : WellFormed .pipe

theorem wellFormed_of_entries {node : Node} (h : node.entries = []) : node.WellFormed := by
  cases node with
  | directory mode entries =>
    obtain rfl : entries = [] := h
    exact .directory (by simp) (by simp) (by simp)
  | file data => exact .file data
  | link target => exact .link target
  | pipe => exact .pipe

theorem not_mem_of_lookup {entries : List (Name × Node)} {name : Name}
    (h : entries.lookup name = none) : name ∉ entries.map Prod.fst := by
  induction entries with
  | nil => simp
  | cons e rest ih =>
    obtain ⟨k, node⟩ := e
    rw [List.lookup_cons] at h
    by_cases hk : name = k
    · subst hk
      simp at h
    · rw [beq_eq_false_iff_ne.2 hk] at h
      simp only [List.map_cons, List.mem_cons, not_or]
      exact ⟨hk, ih h⟩

/-- Names come from the old entries, or one is the new name. -/
theorem mem_alterEntry {change : Option Node → Option Node} {name : Name}
    {entries : List (Name × Node)} {e : Name × Node} (h : e ∈ alterEntry change name entries) :
    e ∈ entries ∨ e.1 = name ∧ ∃ old, (∀ node, old = some node → (name, node) ∈ entries) ∧
      change old = some e.2 := by
  unfold alterEntry at h
  split at h
  · rcases List.mem_append.1 h with h | h
    · rw [Option.mem_toList, Option.map_eq_some_iff] at h
      obtain ⟨node, hnode, rfl⟩ := h
      exact .inr ⟨rfl, none, by simp, hnode⟩
    · exact .inl h
  · obtain ⟨k, hk, hs⟩ := List.mem_filterMap.1 h
    split at hs
    · rename_i heq
      obtain ⟨node, hnode, rfl⟩ := Option.map_eq_some_iff.1 hs
      refine .inr ⟨rfl, some k.2, ?_, hnode⟩
      intro old hold
      cases hold
      rw [← heq]
      exact hk
    · cases hs
      exact .inl hk

theorem nodup_alterEntry (change : Option Node → Option Node) (name : Name)
    {entries : List (Name × Node)} (h : (entries.map Prod.fst).Nodup) :
    ((alterEntry change name entries).map Prod.fst).Nodup := by
  unfold alterEntry
  split
  · rename_i hlook
    cases hc : change none with
    | none => simpa using h
    | some node => simpa using ⟨by simpa using not_mem_of_lookup hlook, h⟩
  · -- the names that stay are some of the old ones, in their order
    refine h.sublist ?_
    clear h
    rename_i hlook
    clear hlook
    induction entries with
    | nil => simp
    | cons e rest ih =>
      rw [List.filterMap_cons]
      split
      · exact ih.trans (by simp)
      · rename_i k hk
        have heq : k.1 = e.1 := by
          split at hk
          · rename_i hname
            obtain ⟨node, _, rfl⟩ := Option.map_eq_some_iff.1 hk
            exact hname.symm
          · cases hk
            rfl
        simpa [heq] using ih

/-- Altering keeps a tree well formed if the change makes well-formed nodes of such, and adds none
or has a legal name to add one under. -/
theorem WellFormed.alter {node : Node} {change : Option Node → Option Node} {l : Location}
    (h : node.WellFormed)
    (hchange : ∀ old new, (∀ n, old = some n → n.WellFormed) → change old = some new →
      new.WellFormed)
    (hlegal : change none = none ∨ l.all isLegalName = true) :
    (alter change l node).WellFormed := by
  induction l generalizing node with
  | nil => simpa [Node.alter] using h
  | cons name rest ih =>
    cases h with
    | file data => simpa [Node.alter] using WellFormed.file data
    | link target => simpa [Node.alter] using WellFormed.link target
    | pipe => simpa [Node.alter] using WellFormed.pipe
    | @directory mode entries distinct legal inner =>
      -- whatever becomes of one entry, names stay distinct and legal
      have step (change' : Option Node → Option Node)
          (hinner : ∀ old new, (∀ n, old = some n → n.WellFormed) → change' old = some new →
            new.WellFormed)
          (hnew : change' none = none ∨ isLegalName name = true) :
          (Node.directory mode (alterEntry change' name entries)).WellFormed := by
        refine .directory (nodup_alterEntry change' name distinct) ?_ ?_
        · intro k hk
          obtain ⟨e, he, rfl⟩ := List.mem_map.1 hk
          rcases mem_alterEntry he with he | ⟨heq, old, hold, hres⟩
          · exact legal _ (List.mem_map.2 ⟨e, he, rfl⟩)
          · rw [heq]
            cases old with
            | some n => exact legal _ (List.mem_map.2 ⟨_, hold n rfl, rfl⟩)
            | none =>
              rcases hnew with hnew | hnew
              · rw [hnew] at hres
                cases hres
              · exact hnew
        · intro k n hn
          rcases mem_alterEntry hn with hn | ⟨_, old, hold, hres⟩
          · exact inner k n hn
          · exact hinner old n (fun m hm => inner name m (hold m hm)) hres
      cases rest with
      | nil =>
        refine step change hchange (hlegal.imp id ?_)
        simp
      | cons next rest =>
        -- the location goes on below this entry, so nothing is added here
        refine step (Option.map (Node.alter change (next :: rest))) ?_ (.inl rfl)
        intro old new hold hres
        obtain ⟨n, rfl, rfl⟩ := Option.map_eq_some_iff.1 hres
        refine ih (hold n rfl) (hlegal.imp id ?_)
        intro hall
        rw [List.all_cons, Bool.and_eq_true] at hall
        exact hall.2

theorem kind_alter (change : Option Node → Option Node) (l : Location) (node : Node) :
    (alter change l node).kind = node.kind := by
  fun_cases alter change l node <;> rfl

theorem mem_of_lookup {entries : List (Name × Node)} {name : Name} {node : Node}
    (h : entries.lookup name = some node) : (name, node) ∈ entries := by
  induction entries with
  | nil => simp at h
  | cons e rest ih =>
    obtain ⟨k, inner⟩ := e
    rw [List.lookup_cons] at h
    split at h
    · rename_i heq
      cases h
      rw [eq_of_beq heq]
      exact List.mem_cons_self
    · exact List.mem_cons_of_mem _ (ih h)

theorem WellFormed.get? {node inner : Node} {l : Location} (h : node.WellFormed)
    (hget : Node.get? l node = some inner) : inner.WellFormed := by
  induction l generalizing node with
  | nil =>
    cases hget
    exact h
  | cons name rest ih =>
    rw [Node.get?] at hget
    obtain ⟨child, hchild, hrest⟩ := Option.bind_eq_some_iff.1 hget
    refine ih ?_ hrest
    cases h with
    | directory distinct legal hinner => exact hinner name child (mem_of_lookup hchild)
    | file data => simp [child?, entries] at hchild
    | link target => simp [child?, entries] at hchild
    | pipe => simp [child?, entries] at hchild

theorem count_le_countIn {test : Node → Bool} {entries : List (Name × Node)} {name : Name}
    {child : Node} (h : entries.lookup name = some child) :
    child.count test ≤ countIn test entries := by
  induction entries with
  | nil => simp at h
  | cons e rest ih =>
    obtain ⟨k, node⟩ := e
    rw [List.lookup_cons] at h
    rw [countIn]
    split at h
    · cases h
      omega
    · have := ih h
      omega

theorem count_child?_le {test : Node → Bool} {node child : Node} {name : Name}
    (h : node.child? name = some child) : child.count test ≤ node.count test := by
  cases node with
  | directory mode entries => exact count_le_countIn h
  | file data => simp [child?, entries] at h
  | link target => simp [child?, entries] at h
  | pipe => simp [child?, entries] at h

theorem length_le_countIn (entries : List (Name × Node)) :
    entries.length ≤ countIn (fun _ => true) entries := by
  induction entries with
  | nil => simp
  | cons e rest ih =>
    obtain ⟨k, node⟩ := e
    rw [List.length_cons, countIn]
    simp only [if_true]
    omega

theorem length_entries_le_count (node : Node) :
    node.entries.length ≤ node.count fun _ => true := by
  cases node with
  | directory mode entries => exact length_le_countIn entries
  | file data => simp [entries]
  | link target => simp [entries]
  | pipe => simp [entries]

theorem count_get?_le {test : Node → Bool} {l : Location} {node inner : Node}
    (h : get? l node = some inner) : inner.count test ≤ node.count test := by
  induction l generalizing node with
  | nil =>
    cases h
    exact Nat.le_refl _
  | cons name rest ih =>
    rw [get?] at h
    obtain ⟨child, hchild, hrest⟩ := Option.bind_eq_some_iff.1 h
    exact Nat.le_trans (ih hrest) (count_child?_le hchild)

theorem get?_concat (l : Location) (name : Name) (node : Node) :
    get? (l ++ [name]) node = (get? l node).bind (child? · name) := by
  induction l generalizing node with
  | nil =>
    simp only [List.nil_append, get?, Option.bind_some]
    cases node.child? name <;> rfl
  | cons first rest ih =>
    simp only [List.cons_append, get?, Option.bind_assoc]
    cases node.child? first with
    | none => rfl
    | some next => exact ih next

end Node

end TreeArchive
