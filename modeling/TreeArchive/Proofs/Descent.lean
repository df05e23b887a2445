import Mathlib
import TreeArchive.Proofs.Reached

/-!
How far down a walk gets, whatever links there are. From one link that it follows to the next it
goes down the tree, and a link that it follows opens a directory that is not open yet. So the number
of directories and the height of the tree bound the directories that are open together, and these
bound the items, even if a path could be of any length.
-/
namespace TreeArchive

namespace Node

variable {node child inner : Node} {name : Name} {entries : List (Name × Node)} {l : Location}

theorem exists_entries_of_child? (h : node.child? name = some child) :
    ∃ mode entries, node = .directory mode entries ∧ entries.lookup name = some child := by
  cases node with
  | directory mode entries => exact ⟨mode, entries, rfl, h⟩
  | file data => cases h
  | link target => cases h
  | pipe => cases h

theorem height_lt_heightIn (h : entries.lookup name = some child) :
    child.height < heightIn entries := by
  induction entries with
  | nil => cases h
  | cons e rest ih =>
    obtain ⟨k, first⟩ := e
    rw [List.lookup_cons] at h
    rw [heightIn]
    split at h
    · cases h
      omega
    · have hrest := ih h
      omega

theorem length_le_height (h : get? l node = some inner) : l.length ≤ node.height := by
  induction l generalizing node with
  | nil => exact Nat.zero_le _
  | cons name rest ih =>
    obtain ⟨child, hchild, hrest⟩ := Option.bind_eq_some_iff.1 h
    obtain ⟨mode, entries, rfl, hlookup⟩ := exists_entries_of_child? hchild
    have hdeeper := ih hrest
    have hlt := height_lt_heightIn hlookup
    rw [List.length_cons, height]
    omega

theorem mem_descendantsIn (h : entries.lookup name = some child)
    (hinner : l = [] ∧ child = inner ∨ (l, inner) ∈ child.descendants) :
    (name :: l, inner) ∈ descendantsIn entries := by
  induction entries with
  | nil => cases h
  | cons e rest ih =>
    obtain ⟨k, first⟩ := e
    rw [List.lookup_cons] at h
    simp only [descendantsIn, List.cons_append, List.mem_cons, List.mem_append, List.mem_map]
    split at h
    · rename_i heq
      obtain rfl := Option.some.inj h
      obtain rfl := eq_of_beq heq
      rcases hinner with ⟨rfl, rfl⟩ | hinner
      · exact .inl rfl
      · exact .inr (.inl ⟨_, hinner, rfl⟩)
    · exact .inr (.inr (ih h))

theorem mem_descendants (h : get? l node = some inner) (hne : l ≠ []) :
    (l, inner) ∈ node.descendants := by
  induction l generalizing node with
  | nil => exact absurd rfl hne
  | cons name rest ih =>
    obtain ⟨child, hchild, hrest⟩ := Option.bind_eq_some_iff.1 h
    obtain ⟨mode, entries, rfl, hlookup⟩ := exists_entries_of_child? hchild
    rw [descendants]
    apply mem_descendantsIn hlookup
    by_cases hnil : rest = []
    · subst hnil
      exact .inl ⟨rfl, Option.some.inj hrest⟩
    · exact .inr (ih hrest hnil)

end Node

namespace FileSystem

def directories (fs : FileSystem) : List Location :=
  [] :: (fs.root.descendants.filter fun d => d.2.kind = .directory).map Prod.fst

theorem mem_directories {fs : FileSystem} {l : Location} {node : Node}
    (h : fs.get? l = some node) (hdir : node.kind = .directory) : l ∈ fs.directories := by
  by_cases hne : l = []
  · rw [hne]
    exact List.mem_cons_self
  · apply List.mem_cons_of_mem
    exact List.mem_map.2 ⟨(l, node), List.mem_filter.2 ⟨Node.mem_descendants h hne, by simp [hdir]⟩,
      rfl⟩

/-- How many directories a walk can have open: for each directory that a link has led to, those on
the way down from it. -/
def maxDepth (fs : FileSystem) : Nat :=
  fs.directories.length * (fs.root.height + 1)

end FileSystem

open FileSystem

namespace Settings

variable {s : Settings} {fs : FileSystem} {names : List Name} {opened : List Location}
  {l : Location}

theorem Reached.mem_directories (h : s.Reached fs names opened) (hl : l ∈ opened) :
    l ∈ fs.directories := by
  induction h with
  | source h =>
    obtain rfl := List.mem_singleton.1 hl
    exact FileSystem.mem_directories (get?_of_find h) rfl
  | directory outer legal h ih =>
    rcases List.mem_cons.1 hl with rfl | hl
    · exact FileSystem.mem_directories (get?_of_find h) rfl
    · exact ih hl
  | link outer legal followed hlink h noLoop ih =>
    rcases List.mem_cons.1 hl with rfl | hl
    · exact FileSystem.mem_directories (get?_of_find h) rfl
    · exact ih hl

theorem Reached.distinct_le (h : s.Reached fs names opened) :
    opened.toFinset.card ≤ fs.directories.length := by
  have hsubset : opened.toFinset ⊆ fs.directories.toFinset := by
    intro l hl
    rw [List.mem_toFinset] at hl ⊢
    exact h.mem_directories hl
  exact (Finset.card_le_card hsubset).trans (List.toFinset_card_le _)

/-- The open directories are few if few of them are distinct: from one that is open to the next the
walk goes down the tree, unless the next has not been open before. -/
theorem Reached.length_le (h : s.Reached fs names (l :: opened)) :
    (l :: opened).length + (fs.root.height - l.length) ≤
      (l :: opened).toFinset.card * (fs.root.height + 1) := by
  generalize hall : l :: opened = all at h
  induction h generalizing l opened with
  | source h =>
    cases hall
    simp
    omega
  | @directory names outer name inner mode nodes houter legal h ih =>
    cases hall
    obtain ⟨above, rest, rfl⟩ := Rules.exists_cons_of_reached houter
    obtain ⟨mode', nodes', habove⟩ := Rules.find_of_reached houter
    have hheight := Node.length_le_height (get?_of_find h)
    rw [Path.below_concat, find_child legal (Rules.bytes_ne_nil_of_find habove)] at h
    obtain ⟨-, above', _, _, habove', -, rfl⟩ := h
    obtain ⟨rfl, -⟩ := Prod.mk.inj (Except.ok.inj (habove.symm.trans habove'))
    have hprevious := ih rfl
    have hmore : (above :: rest).toFinset.card ≤
        (insert (above ++ [name]) (above :: rest).toFinset).card :=
      Finset.card_le_card (Finset.subset_insert _ _)
    have hgrow := Nat.mul_le_mul_right (fs.root.height + 1) hmore
    rw [List.toFinset_cons]
    simp only [List.length_cons, List.length_append, List.length_nil] at hprevious hheight ⊢
    omega
  | link houter legal followed hlink h noLoop ih =>
    cases hall
    obtain ⟨above, rest, rfl⟩ := Rules.exists_cons_of_reached houter
    have hprevious := ih rfl
    rw [List.toFinset_cons, Finset.card_insert_of_notMem (by rwa [List.mem_toFinset]), Nat.add_mul]
    simp only [List.length_cons] at hprevious ⊢
    omega

end Settings

namespace Rules

variable {r : Rules} {fs : FileSystem} {names : List Name} {paths : List Path}
  {opened : List Location} {here : Location} {name : Name} {node : Node} {p : Path}

/-- No directory is entered below as many as can be open. -/
theorem Visited.depth_lt (hv : r.Visited fs names here opened name node paths)
    (hvisit : r.visit fs paths (r.listed names name node) = .directory p) :
    paths.length < fs.maxDepth := by
  have hlength : paths.length = (here :: opened).length := List.Forall₂.length_eq hv.opened
  have hbound {names : List Name} {opened : List Location}
      (h : r.settings.Reached fs names opened) :
      opened.toFinset.card * (fs.root.height + 1) ≤ fs.maxDepth :=
    Nat.mul_le_mul_right _ h.distinct_le
  obtain ⟨rfl, -, hkind | ⟨-, -, l, mode, nodes, hfind, -⟩⟩ :=
    (visit_eq_directory hv.opened).1 hvisit
  · -- the directory is lower in the tree than the one it is listed in
    have hheight := Node.length_le_height hv.entry
    have habove := hv.reached.length_le.trans (hbound hv.reached)
    rw [List.length_append, List.length_singleton] at hheight
    omega
  · have hreached :=
      reached_of_visit hv.reached hv.opened hv.asListed.1 hv.asListed.2 rfl hvisit hfind
    have habove := hreached.length_le.trans (hbound hreached)
    rw [List.length_cons] at habove
    omega

theorem breadth_pos (fs : FileSystem) : 0 < fs.breadth := by
  unfold FileSystem.breadth
  omega

/-- A directory gives at most `breadth` times what one of its nodes may give. -/
theorem length_flatMap_listing_le {bound : Nat} (hpos : 0 < bound)
    (h : ∀ v, .ok v ∈ r.listing fs p → (r.traverse fs paths v).length ≤ bound) :
    ((r.listing fs p).flatMap (r.traverseItem fs paths)).length ≤ fs.breadth * bound := by
  have hitem : ∀ n ∈ (r.listing fs p).map fun item => (r.traverseItem fs paths item).length,
      n ≤ bound := by
    intro n hn
    obtain ⟨item, hitem, rfl⟩ := List.mem_map.1 hn
    cases item with
    | error e => exact hpos
    | ok v => exact h v hitem
  calc ((r.listing fs p).flatMap (r.traverseItem fs paths)).length
      = ((r.listing fs p).map fun item => (r.traverseItem fs paths item).length).sum :=
        List.length_flatMap
    _ ≤ (r.listing fs p).length * bound := by
        simpa using List.sum_le_card_nsmul _ bound hitem
    _ ≤ fs.breadth * bound := by
        have hlisting := r.length_listing_le fs p
        exact Nat.mul_le_mul_right bound (by omega)

theorem Visited.length_traverse_le (hv : r.Visited fs names here opened name node paths) :
    (r.traverse fs paths (r.listed names name node)).length ≤
      fs.breadth ^ (fs.maxDepth - paths.length) := by
  induction hdepth : fs.maxDepth - paths.length
    generalizing names here opened name node paths with
  | zero =>
    rw [traverse_eq]
    cases hvisit : r.visit fs paths (r.listed names name node) with
    | item i => exact Nat.le_refl 1
    | nothing => exact Nat.zero_le _
    | directory p =>
      have hlt := hv.depth_lt hvisit
      omega
  | succ depth ih =>
    have hpos : 0 < fs.breadth ^ depth := Nat.pow_pos (breadth_pos fs)
    rw [traverse_eq, Nat.pow_succ']
    cases hvisit : r.visit fs paths (r.listed names name node) with
    | item i => exact Nat.mul_pos (breadth_pos fs) hpos
    | nothing => exact Nat.zero_le _
    | directory p =>
      obtain ⟨rfl, -, -⟩ := (visit_eq_directory hv.opened).1 hvisit
      apply length_flatMap_listing_le hpos
      intro v hlisted
      obtain ⟨l, inner, child, rfl, hchild⟩ := hv.exists_child hvisit hlisted
      apply ih hchild
      rw [List.length_cons]
      omega

/-- A walk has no more items than `breadth` at each of the directories that it can have open. -/
theorem length_results_begin_le (r : Rules) (fs : FileSystem) :
    (r.results fs [] (r.begin fs)).length ≤ fs.breadth ^ fs.maxDepth := by
  have hpos : 0 < fs.breadth ^ (fs.maxDepth - 1) := Nat.pow_pos (breadth_pos fs)
  have hdepth : 0 < fs.maxDepth := Nat.mul_pos (Nat.succ_pos _) (Nat.succ_pos _)
  have hpow : fs.breadth ^ fs.maxDepth = fs.breadth * fs.breadth ^ (fs.maxDepth - 1) := by
    rw [← Nat.pow_succ', Nat.succ_eq_add_one, Nat.sub_add_cancel hdepth]
  rcases r.begin_cases fs with ⟨i, hbegin, -⟩ | ⟨hbegin, here, mode, nodes, hfind⟩ | hbegin
  · rw [hbegin]
    exact Nat.pow_pos (breadth_pos fs)
  · rw [hbegin, hpow]
    apply length_flatMap_listing_le hpos
    intro v hlisted
    obtain ⟨inner, child, rfl, hchild⟩ := visited_of_mem_source hfind hlisted
    exact hchild.length_traverse_le
  · rw [hbegin]
    exact Nat.zero_le _

end Rules

end TreeArchive
