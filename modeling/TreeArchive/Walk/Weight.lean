import TreeArchive.FileSystem.Placed
import TreeArchive.Walk.Step

/-!
Why a walk ends on a file system that does not change: every node in a listing has a longer path
than the listed directory, and the host lists no directory whose path is too long.
-/
namespace TreeArchive

/-- How far a path can grow before the host refuses it. -/
def Path.room (p : Path) : Nat :=
  FileSystem.maxPath - p.bytes.length

namespace FileSystem

/-- More than the entries of any directory. -/
def breadth (fs : FileSystem) : Nat :=
  (fs.root.count fun _ => true) + 3

theorem length_list_le {fs : FileSystem} {p : Path} {entries : List (Name × Kind)}
    (h : fs.list p = .ok entries) : entries.length + 3 ≤ fs.breadth := by
  obtain ⟨l, mode, nodes, hfind, rfl⟩ := list_eq_ok.1 h
  have hnodes := Node.length_entries_le_count (.directory mode nodes)
  have hroot : Node.count (fun _ => true) (.directory mode nodes) ≤ fs.root.count fun _ => true :=
    Node.count_get?_le (get?_of_find hfind)
  simp only [Node.entries] at hnodes
  simp only [breadth, List.length_map]
  omega

theorem legal_of_mem_list {fs : FileSystem} {p : Path} {entries : List (Name × Kind)} {name : Name}
    {kind : Kind} (h : fs.list p = .ok entries) (hmem : (name, kind) ∈ entries) :
    isLegalName name = true := by
  obtain ⟨l, mode, nodes, hfind, rfl⟩ := list_eq_ok.1 h
  obtain ⟨⟨_, node⟩, hnode, heq⟩ := List.mem_map.1 hmem
  obtain ⟨rfl, -⟩ := Prod.mk.inj heq
  cases fs.wellFormed.get? (get?_of_find hfind) with
  | directory distinct legal inner => exact legal _ (List.mem_map.2 ⟨_, hnode, rfl⟩)

theorem length_lt_of_list {fs : FileSystem} {p : Path} {entries : List (Name × Kind)}
    (h : fs.list p = .ok entries) : p.bytes.length < maxPath := by
  obtain ⟨l, mode, nodes, hfind, -⟩ := list_eq_ok.1 h
  exact length_lt_of_find hfind

end FileSystem

theorem Rules.mem_listing {r : Rules} {fs : FileSystem} {p : Path}
    {item : Except (Path × IoError) Visit} :
    item ∈ r.listing fs p ↔ (∃ e, fs.list p = .error e ∧ item = .error (p, e)) ∨
      ∃ entries name kind, fs.list p = .ok entries ∧ (name, kind) ∈ entries ∧
        item = .ok ⟨p.child name, kind, false⟩ := by
  unfold listing
  cases hlist : fs.list p with
  | error e => simp
  | ok entries =>
    have hperm (a : Name × Kind) : a ∈ (if r.settings.sorted then entries.mergeSort nameLe
        else entries) ↔ a ∈ entries := by
      split
      · exact List.mem_mergeSort
      · exact Iff.rfl
    simp only [reduceCtorEq, false_and, exists_false, false_or, Except.ok.injEq, List.mem_map,
      hperm, Prod.exists]
    constructor
    · intro h
      obtain ⟨name, kind, hmem, rfl⟩ := h
      exact ⟨entries, name, kind, rfl, hmem, rfl⟩
    · intro h
      obtain ⟨_, name, kind, rfl, hmem, rfl⟩ := h
      exact ⟨name, kind, hmem, rfl⟩

theorem Rules.length_listing_le (r : Rules) (fs : FileSystem) (p : Path) :
    (r.listing fs p).length + 2 ≤ fs.breadth := by
  unfold listing
  cases hlist : fs.list p with
  | error e =>
    simp only [List.length_singleton, FileSystem.breadth]
    omega
  | ok entries =>
    have hlength : (if r.settings.sorted then entries.mergeSort nameLe else entries).length =
        entries.length := by
      split
      · exact List.length_mergeSort entries
      · rfl
    simp only [List.length_map, hlength]
    have := FileSystem.length_list_le hlist
    omega

/-- Nodes in a listing have less room than the directory they are in. -/
theorem Rules.room_lt_of_mem_listing {r : Rules} {fs : FileSystem} {p : Path} {v : Visit}
    (h : .ok v ∈ r.listing fs p) : v.path.room < p.room := by
  rcases mem_listing.1 h with ⟨e, -, heq⟩ | ⟨entries, name, kind, hlist, hmem, heq⟩
  · cases heq
  · cases heq
    have hgrow := Path.length_lt_child (p := p) (FileSystem.legal_of_mem_list hlist hmem)
    have hshort := FileSystem.length_lt_of_list hlist
    unfold Path.room
    simp only
    omega

/-- More than the steps that a listed item takes, with at most `breadth` entries a directory. -/
def itemWeight (breadth : Nat) : Except (Path × IoError) Visit → Nat
  | .error _ => 1
  | .ok v => Nat.pow breadth (v.path.room + 1)

def Frame.weight (breadth : Nat) (frame : Frame) : Nat :=
  frame.pending.foldr (fun item n => itemWeight breadth item + n) 1

theorem foldr_le_mul {α : Type} {f : α → Nat} {xs : List α} {bound : Nat}
    (h : ∀ x ∈ xs, f x ≤ bound) : xs.foldr (fun x n => f x + n) 1 ≤ xs.length * bound + 1 := by
  induction xs with
  | nil => simp
  | cons x rest ih =>
    have hx := h x List.mem_cons_self
    have hrest := ih fun y hy => h y (List.mem_cons_of_mem _ hy)
    rw [List.foldr_cons, List.length_cons, Nat.add_mul, Nat.one_mul]
    omega

/-- An open directory weighs less than the node that it was. -/
theorem Rules.weight_listing_lt (r : Rules) (fs : FileSystem) (p : Path) :
    (Frame.mk p (r.listing fs p)).weight fs.breadth < Nat.pow fs.breadth (p.room + 1) := by
  have hpos : 0 < Nat.pow fs.breadth p.room := Nat.pow_pos (by unfold FileSystem.breadth; omega)
  have hitem (item : Except (Path × IoError) Visit) (hmem : item ∈ r.listing fs p) :
      itemWeight fs.breadth item ≤ Nat.pow fs.breadth p.room := by
    cases item with
    | error e => exact hpos
    | ok v =>
      exact Nat.pow_le_pow_right (by unfold FileSystem.breadth; omega)
        (room_lt_of_mem_listing hmem)
  -- fewer than `breadth` items, each of them lighter by one factor `breadth`
  have hsum := foldr_le_mul hitem
  have hlength := Nat.mul_le_mul_right (Nat.pow fs.breadth p.room) (length_listing_le r fs p)
  have hpow : Nat.pow fs.breadth (p.room + 1) = fs.breadth * Nat.pow fs.breadth p.room :=
    Nat.pow_succ'
  rw [Nat.add_mul] at hlength
  rw [Frame.weight, hpow]
  simp only
  omega

theorem Rules.look_path {r : Rules} {fs : FileSystem} {opened : List Path} {v v' : Visit}
    (h : r.look fs opened v = .ok v') : v'.path = v.path := by
  unfold look at h
  split at h
  · unfold follow at h
    split at h
    · cases h
    · split at h
      · obtain ⟨u, -, hpath⟩ := bind_eq_ok.1 h
        cases hpath
        rfl
      · cases h
        rfl
  · cases h
    rfl

theorem Rules.eq_of_leaf {r : Rules} {fs : FileSystem} {v : Visit} {p : Path} :
    r.leaf fs v ≠ .directory p := by
  unfold leaf
  split <;> simp

/-- A visit goes on with no directory but the one visited. -/
theorem Rules.eq_of_visit {r : Rules} {fs : FileSystem} {opened : List Path} {v : Visit} {p : Path}
    (h : r.visit fs opened v = .directory p) : p = v.path := by
  unfold visit at h
  split at h
  · cases h
  · rename_i v' hlook
    split at h
    · cases h
    · split at h
      · cases h
        exact look_path hlook
      · exact absurd h eq_of_leaf

theorem Rules.eq_of_begin {r : Rules} {fs : FileSystem} {p : Path} (h : r.begin fs = .directory p) :
    p = r.settings.source := by
  simp only [begin] at h
  split at h
  · cases h
  · split at h
    · cases h
    · split at h
      · cases h
        rfl
      · split at h
        · split at h
          · cases h
          · cases h
            rfl
          · cases h
        · cases h

namespace Walk

/-- More than the steps that a walk takes on a file system that does not change. -/
def weight (w : Walk) (fs : FileSystem) : Nat :=
  (if w.fresh then Nat.pow fs.breadth (w.rules.settings.source.room + 1) else 0) +
    w.stack.foldr (fun frame n => frame.weight fs.breadth + n) 0

/-- The walk behind a step. -/
def Step.walk? : Step → Option Walk
  | .finished => none
  | .moved w => some w
  | .yielded _ w => some w

theorem weight_push (w : Walk) (fs : FileSystem) (p : Path) : (w.push fs p).weight fs =
    (Frame.mk p (w.rules.listing fs p)).weight fs.breadth + w.weight fs :=
  Nat.add_left_comm _ _ _

/-- Going on with a node adds less than the node weighed. -/
theorem weight_of_after {w next : Walk} {fs : FileSystem} {o : Rules.Outcome} {node : Path}
    (hnode : ∀ p, o = .directory p → p = node) (h : (w.after fs o).walk? = some next) :
    next.weight fs < w.weight fs + Nat.pow fs.breadth (node.room + 1) := by
  have hpos : 0 < Nat.pow fs.breadth (node.room + 1) :=
    Nat.pow_pos (by unfold FileSystem.breadth; omega)
  cases o with
  | item i =>
    cases h
    omega
  | nothing =>
    cases h
    omega
  | directory p =>
    obtain rfl := hnode p rfl
    cases h
    rw [weight_push]
    have := w.rules.weight_listing_lt fs p
    omega

theorem weight_step {w next : Walk} {fs : FileSystem} (h : (w.step fs).walk? = some next) :
    next.weight fs < w.weight fs := by
  obtain ⟨rules, fresh, stack⟩ := w
  cases fresh with
  | true =>
    have := weight_of_after (fun _ => Rules.eq_of_begin) h
    simp only [weight, if_true, Bool.false_eq_true, if_false] at this ⊢
    omega
  | false =>
    match stack, h with
    | [], h => cases h
    | ⟨directory, []⟩ :: outer, h =>
      cases h
      simp [weight, Frame.weight]
    | ⟨directory, .error (p, e) :: pending⟩ :: outer, h =>
      cases h
      simp only [weight, Frame.weight, itemWeight, List.foldr_cons]
      omega
    | ⟨directory, .ok v :: pending⟩ :: outer, h =>
      -- the node leaves its frame, and the directory that it may open weighs less
      have := weight_of_after (fun _ => Rules.eq_of_visit) h
      simp only [weight, Frame.weight, itemWeight, List.foldr_cons,
        Bool.false_eq_true, if_false] at this ⊢
      omega

end Walk

end TreeArchive
