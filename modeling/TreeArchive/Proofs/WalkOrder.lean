import TreeArchive.Proofs.LeftOut
import TreeArchive.Proofs.Pulled

/-!
The order of a sorted walk. What the walk has still to take up stands in the order of the names
below the source, and each step keeps it so: a directory gives way to what it holds, in its place.
So the items come in that order, across all directories. It is not the order of the paths' texts:
`a/x` comes before `a.txt`.
-/
namespace TreeArchive

open FileSystem

/-- Two ways through names fork, and at the fork the first of them takes the lesser name. -/
inductive ForksBefore : List Name → List Name → Prop where
  | fork {a b : Name} {front back : List Name} (h : a < b) : ForksBefore (a :: front) (b :: back)
  | shared {a : Name} {front back : List Name} (h : ForksBefore front back) :
      ForksBefore (a :: front) (a :: back)

namespace ForksBefore

variable {front back : List Name}

theorem lt (h : ForksBefore front back) : front < back := by
  induction h with
  | fork h => exact List.cons_lt_cons_iff.2 (.inl h)
  | shared h ih => exact List.cons_lt_cons_iff.2 (.inr ⟨rfl, ih⟩)

/-- What comes behind a fork has no part in the order. -/
theorem extend (h : ForksBefore front back) (more more' : List Name) :
    ForksBefore (front ++ more) (back ++ more') := by
  induction h with
  | fork h => exact .fork h
  | shared h ih => exact .shared ih

theorem of_lt (shared : List Name) {a b : Name} (h : a < b) :
    ForksBefore (shared ++ [a]) (shared ++ [b]) := by
  induction shared with
  | nil => exact .fork h
  | cons name rest ih => exact .shared ih

end ForksBefore

namespace Path

/-- Paths that lead below a source through names, each of which forks off before the later ones. -/
structure InOrder (source : Path) (names : List (List Name)) (paths : List Path) : Prop where
  below : paths = names.map source.below
  legal : ∀ n ∈ names, ∀ name ∈ n, isLegalName name = true
  forks : names.Pairwise ForksBefore

/-- Two paths below a source are ordered by their components there, names compared by bytes. -/
def Precedes (source p q : Path) : Prop :=
  ∃ front back : List Name, p.components = source.components ++ front.map .normal ∧
    q.components = source.components ++ back.map .normal ∧ front < back

variable {source : Path} {names : List (List Name)} {paths : List Path}

theorem InOrder.precedes (h : InOrder source names paths) : paths.Pairwise source.Precedes := by
  obtain ⟨rfl, hlegal, hforks⟩ := h
  have hcomponents (n : List Name) (hn : n ∈ names) :
      (source.below n).components = source.components ++ n.map .normal :=
    components_below fun name hname => ordinary_of_isLegalName (hlegal n hn name hname)
  apply List.pairwise_map.2
  apply hforks.imp_of_mem
  intro front back hfront hback hfork
  exact ⟨front, back, hcomponents front hfront, hcomponents back hback, hfork.lt⟩

theorem InOrder.tail {front : List Name} {p : Path}
    (h : InOrder source (front :: names) (p :: paths)) : InOrder source names paths := by
  obtain ⟨hbelow, hlegal, hforks⟩ := h
  obtain ⟨-, hrest⟩ := List.cons.inj hbelow
  exact ⟨hrest, fun n hn => hlegal n (List.mem_cons_of_mem _ hn), hforks.of_cons⟩

/-- In the place of its first path may stand paths that go on from there. -/
theorem InOrder.replace {front : List Name} {p : Path} {inner : List (List Name)}
    {children : List Path} (h : InOrder source (front :: names) (p :: paths))
    (hchildren : InOrder source inner children) (hinner : ∀ n ∈ inner, front <+: n) :
    InOrder source (inner ++ names) (children ++ paths) := by
  obtain ⟨hbelow, hlegal, hforks⟩ := h.tail
  refine ⟨?_, ?_, ?_⟩
  · rw [hchildren.below, hbelow, List.map_append]
  · exact List.forall_mem_append.2 ⟨hchildren.legal, hlegal⟩
  · refine List.pairwise_append.2 ⟨hchildren.forks, hforks, ?_⟩
    intro n hn later hlater
    obtain ⟨more, rfl⟩ := hinner n hn
    -- the fork is where the way to the directory itself forks
    have hfork := (List.pairwise_cons.1 h.forks).1 later hlater
    simpa using hfork.extend more []

end Path

namespace Rules

variable {r : Rules} {fs : FileSystem} {paths : List Path} {opened : List Location} {v : Visit}
  {p : Path}

/-- The path of a listed node, or of the directory that could not be listed. -/
def pathOf : Except (Path × IoError) Visit → Path
  | .error (p, _) => p
  | .ok v => v.path

/-- A listed node stands in its directory. -/
def Lists (fs : FileSystem) (directory : Path) (v : Visit) : Prop :=
  ∃ here mode nodes name node, fs.find directory true = .ok (here, .directory mode nodes) ∧
    nodes.lookup name = some node ∧ v = ⟨directory.child name, node.kind, false⟩

theorem lists_of_mem_listing (h : .ok v ∈ r.listing fs p) : Lists fs p v := by
  rcases mem_listing.1 h with ⟨e, -, heq⟩ | ⟨entries, -, -, hlist, -, -⟩
  · cases heq
  · obtain ⟨here, mode, nodes, hfind, -⟩ := list_eq_ok.1 hlist
    obtain ⟨name, node, hlookup, heq⟩ := (mem_listing_of_directory hfind).1 h
    cases heq
    exact ⟨here, mode, nodes, name, node, hfind, hlookup, rfl⟩

/-- A sorted listing is in order, and nothing in it leads elsewhere than into the directory. -/
theorem listing_in_order (fs : FileSystem) (hsorted : r.settings.sorted = true)
    {front : List Name} (hfront : ∀ name ∈ front, isLegalName name = true) :
    ∃ inner, Path.InOrder r.settings.source inner
      ((r.listing fs (r.settings.source.below front)).map pathOf) ∧ ∀ n ∈ inner, front <+: n := by
  cases hlist : fs.list (r.settings.source.below front) with
  | error e =>
    have hlisting : r.listing fs (r.settings.source.below front) =
        [.error (r.settings.source.below front, e)] := by simp only [listing, hlist]
    refine ⟨[front], ⟨?_, ?_, ?_⟩, ?_⟩
    · rw [hlisting]
      rfl
    · exact List.forall_mem_singleton.2 hfront
    · exact List.pairwise_singleton _ _
    · exact List.forall_mem_singleton.2 (List.prefix_refl front)
  | ok entries =>
    obtain ⟨here, mode, nodes, hfind, -⟩ := list_eq_ok.1 hlist
    have hdistinct := nodup_names_mergeSort (nodup_names hfind)
    refine ⟨((entriesOf nodes).mergeSort nameLe).map fun e => front ++ [e.1], ⟨?_, ?_, ?_⟩, ?_⟩
    · rw [listing_of_directory hsorted hfind, List.map_map, List.map_map]
      apply List.map_congr_left
      intro e he
      exact (Path.below_concat r.settings.source front e.1).symm
    · intro n hn
      obtain ⟨⟨name, kind⟩, hmem, rfl⟩ := List.mem_map.1 hn
      obtain ⟨node, hlookup, -⟩ := (mem_entriesOf (nodup_names hfind)).1 (List.mem_mergeSort.1 hmem)
      exact List.forall_mem_append.2
        ⟨hfront, List.forall_mem_singleton.2 (asListed_child hfind hlookup).1⟩
    · -- the names are sorted, and no two of them are the same
      apply List.pairwise_map.2
      have hne := List.pairwise_map.1 hdistinct
      apply ((pairwise_mergeSort (entriesOf nodes)).and hne).imp
      intro a b hab
      have hle : a.1 ≤ b.1 := by simpa [nameLe] using hab.1
      apply ForksBefore.of_lt front
      by_contra hlt
      exact hab.2 (List.le_antisymm hle hlt)
    · intro n hn
      obtain ⟨e, -, rfl⟩ := List.mem_map.1 hn
      exact List.prefix_append front [e.1]

/-- An item is told of a path: it is the entry of the file there, a failure of the walk there, or
says that the path has no relative form. -/
inductive Concerns (root p : Path) : Except Failure Entry → Prop where
  | entry {e : Entry} (h : e.path = p) : Concerns root p (.ok e)
  | fault {e : IoError} : Concerns root p (.error (.walk p e))
  | unnamed {f : Failure} (h : RelativePath.fromRoot p root = .error f) :
      Concerns root p (.error f)

theorem concerns_of_visit {i : Except Failure Entry} (hopened : Opened fs paths opened)
    (h : r.visit fs paths v = .item i) : Concerns r.settings.root v.path i := by
  rcases file_of_visit h with ⟨p, e, rfl⟩ | ⟨-, l, data, -, rfl⟩
  · rw [path_of_visit_fault hopened h]
    exact .fault
  · cases hrelative : RelativePath.fromRoot v.path r.settings.root with
    | ok relative => exact .entry rfl
    | error f => exact .unnamed hrelative

/-- A walk that does not get into its source fails there. -/
theorem concerns_of_begin {i : Except Failure Entry} (h : r.begin fs = .item i) :
    Concerns r.settings.root r.settings.source i := by
  have hfault (e : IoError) :
      Concerns r.settings.root r.settings.source (.error (r.failure ⟨some r.settings.source, e⟩)) :=
    .fault
  unfold begin at h
  simp only at h
  split at h
  · cases h
    exact hfault _
  · split at h
    · rename_i f hlook
      cases h
      rw [failure, path_of_look_error .nil hlook]
      exact .fault
    · split at h
      · cases h
      · split at h
        · split at h
          · cases h
            exact hfault _
          · cases h
          · cases h
        · cases h

end Rules

namespace Walk

open Rules

/-- The paths that a walk has still to take up, as far as it has listed them, the next one first. -/
def todo (w : Walk) : List Path :=
  (if w.fresh then [w.rules.settings.source] else []) ++
    w.stack.flatMap fun frame => frame.pending.map pathOf

/-- All items that a walk has still to give, each with the path that is taken up for it. -/
def located (fs : FileSystem) (w : Walk) : List (Path × Except Failure Entry) :=
  match _h : w.step fs with
  | .finished => []
  | .moved w' => located fs w'
  | .yielded i w' => (w.todo.headD w.rules.settings.source, i) :: located fs w'
termination_by w.weight fs
decreasing_by
  · exact weight_step (by rw [_h]; rfl)
  · exact weight_step (by rw [_h]; rfl)

/-- What holds of a walk whenever it holds of the walk behind each step holds of every walk. -/
theorem run_induct (fs : FileSystem) {motive : Walk → Prop}
    (h : ∀ w, (∀ w', (w.step fs).walk? = some w' → motive w') → motive w) (w : Walk) :
    motive w := by
  induction hweight : w.weight fs using Nat.strongRecOn generalizing w with
  | ind weight ih =>
    subst hweight
    apply h
    intro w' hstep
    exact ih _ (weight_step hstep) w' rfl

variable {w w' : Walk} {fs : FileSystem} {i : Except Failure Entry}

theorem walk?_of_moved (h : w.step fs = .moved w') : (w.step fs).walk? = some w' := by
  rw [h]
  rfl

theorem walk?_of_yielded (h : w.step fs = .yielded i w') : (w.step fs).walk? = some w' := by
  rw [h]
  rfl

theorem located_step (fs : FileSystem) (w : Walk) : w.located fs =
    match w.step fs with
    | .finished => []
    | .moved w' => w'.located fs
    | .yielded i w' => (w.todo.headD w.rules.settings.source, i) :: w'.located fs := by
  rw [located]
  cases w.step fs <;> rfl

theorem map_snd_located (fs : FileSystem) (w : Walk) :
    (w.located fs).map Prod.snd = w.items fs := by
  induction w using run_induct fs with
  | h w ih =>
    rw [located_step, items_step]
    cases hstep : w.step fs with
    | finished => rfl
    | moved w' => exact ih w' (walk?_of_moved hstep)
    | yielded i w' => exact congrArg (i :: ·) (ih w' (walk?_of_yielded hstep))

/-- What a step makes of the paths that are to be taken up: it leaves them as they are, takes the
next one away, or puts a listing in its place. -/
inductive Advances (fs : FileSystem) (w : Walk) : Step → Prop where
  | finished : Advances fs w .finished
  | closed {w' : Walk} (h : w'.todo = w.todo) : Advances fs w (.moved w')
  | yielded {w' : Walk} {p : Path} {i : Except Failure Entry} (h : w.todo = p :: w'.todo) :
      Advances fs w (.yielded i w')
  | dropped {w' : Walk} {p : Path} (h : w.todo = p :: w'.todo) : Advances fs w (.moved w')
  | opened {w' : Walk} {p : Path} {rest : List Path} (h : w.todo = p :: rest)
      (hrest : w'.todo = (w.rules.listing fs p).map pathOf ++ rest) : Advances fs w (.moved w')

theorem todo_push (hfresh : w.fresh = false) (fs : FileSystem) (p : Path) :
    (w.push fs p).todo = (w.rules.listing fs p).map pathOf ++ w.todo := by
  simp [todo, push, hfresh]

/-- Going on with a path that has been taken away from what is to be taken up. -/
theorem advances_after {before : Walk} {p : Path} {o : Outcome} (hrules : w.rules = before.rules)
    (hfresh : w.fresh = false) (htodo : before.todo = p :: w.todo)
    (ho : ∀ q, o = .directory q → q = p) : Advances fs before (w.after fs o) := by
  cases o with
  | item i => exact .yielded htodo
  | nothing => exact .dropped htodo
  | directory q =>
    obtain rfl := ho q rfl
    exact .opened htodo (by rw [todo_push hfresh, hrules])

theorem advances_step (fs : FileSystem) (w : Walk) : Advances fs w (w.step fs) := by
  obtain ⟨rules, fresh, stack⟩ := w
  cases fresh with
  | true => exact advances_after (w := ⟨rules, false, stack⟩) rfl rfl rfl fun q => eq_of_begin
  | false =>
    match stack with
    | [] => exact .finished
    | ⟨directory, []⟩ :: outer => exact .closed rfl
    | ⟨directory, .error (p, e) :: pending⟩ :: outer => exact .yielded rfl
    | ⟨directory, .ok v :: pending⟩ :: outer =>
      exact advances_after (w := ⟨rules, false, ⟨directory, pending⟩ :: outer⟩) rfl rfl rfl
        fun q => eq_of_visit

theorem rules_of_step (h : (w.step fs).walk? = some w') : w'.rules = w.rules := by
  have hafter {w : Walk} {o : Outcome} (h : (w.after fs o).walk? = some w') :
      w'.rules = w.rules := by
    cases o <;> cases h <;> rfl
  obtain ⟨rules, fresh, stack⟩ := w
  cases fresh with
  | true => exact hafter (w := ⟨rules, false, stack⟩) h
  | false =>
    match stack, h with
    | [], h => cases h
    | ⟨directory, []⟩ :: outer, h =>
      cases h
      rfl
    | ⟨directory, .error (p, e) :: pending⟩ :: outer, h =>
      cases h
      rfl
    | ⟨directory, .ok v :: pending⟩ :: outer, h =>
      exact hafter (w := ⟨rules, false, ⟨directory, pending⟩ :: outer⟩) h

/-- What is still to be taken up is in order. -/
def Sorted (w : Walk) (names : List (List Name)) : Prop :=
  Path.InOrder w.rules.settings.source names w.todo

theorem sorted_of_fresh (r : Rules) : Sorted ⟨r, true, []⟩ [[]] where
  below := rfl
  legal := by simp
  forks := List.pairwise_singleton _ _

variable {names : List (List Name)}

/-- The path that is taken up next leads through the first names. -/
theorem Sorted.exists_cons {p : Path} {rest : List Path} (h : w.Sorted names)
    (htodo : w.todo = p :: rest) : ∃ front later, names = front :: later ∧
      p = w.rules.settings.source.below front ∧
      Path.InOrder w.rules.settings.source (front :: later) (p :: rest) := by
  rw [Sorted, htodo] at h
  obtain ⟨front, later, hnames, hp, -⟩ := List.map_eq_cons_iff.1 h.below.symm
  subst hnames
  exact ⟨front, later, rfl, hp.symm, h⟩

theorem Sorted.taken {p : Path} (h : w.Sorted names) (htodo : w.todo = p :: w'.todo)
    (hrules : w'.rules = w.rules) : ∃ front later, names = front :: later ∧
      p = w.rules.settings.source.below front ∧ w'.Sorted later := by
  obtain ⟨front, later, hnames, hp, horder⟩ := h.exists_cons htodo
  refine ⟨front, later, hnames, hp, ?_⟩
  rw [Sorted, hrules]
  exact horder.tail

/-- An item is told of the path that stands first, and the others are left. -/
theorem Sorted.yielded (h : w.Sorted names) (hstep : w.step fs = .yielded i w') :
    ∃ front later, names = front :: later ∧
      w.todo.headD w.rules.settings.source = w.rules.settings.source.below front ∧
      w'.Sorted later := by
  have hadvances := advances_step fs w
  rw [hstep] at hadvances
  cases hadvances with
  | @yielded _ p _ htodo =>
    have hrules := rules_of_step (walk?_of_yielded hstep)
    obtain ⟨front, later, hnames, hp, hlater⟩ := h.taken htodo hrules
    exact ⟨front, later, hnames, by rw [htodo, List.headD_cons, hp], hlater⟩

/-- A step without an item goes on from nowhere but from what was to be taken up. -/
theorem Sorted.moved (h : w.Sorted names) (hsorted : w.rules.settings.sorted = true)
    (hstep : w.step fs = .moved w') :
    ∃ names', w'.Sorted names' ∧ ∀ n ∈ names', ∃ front ∈ names, front <+: n := by
  have hadvances := advances_step fs w
  have hrules := rules_of_step (walk?_of_moved hstep)
  have hself (n : List Name) (hn : n ∈ names) : ∃ front ∈ names, front <+: n :=
    ⟨n, hn, List.prefix_refl n⟩
  rw [hstep] at hadvances
  cases hadvances with
  | closed htodo =>
    refine ⟨names, ?_, hself⟩
    rwa [Sorted, hrules, htodo]
  | dropped htodo =>
    obtain ⟨front, later, rfl, -, hlater⟩ := h.taken htodo hrules
    exact ⟨later, hlater, fun n hn => hself n (List.mem_cons_of_mem _ hn)⟩
  | opened htodo hrest =>
    obtain ⟨front, later, rfl, rfl, horder⟩ := h.exists_cons htodo
    obtain ⟨inner, hlisting, hinner⟩ :=
      listing_in_order fs hsorted (horder.legal front List.mem_cons_self)
    refine ⟨inner ++ later, ?_, ?_⟩
    · rw [Sorted, hrules, hrest]
      exact horder.replace hlisting hinner
    · intro n hn
      -- what is listed goes on from the directory, the others were there before
      rcases List.mem_append.1 hn with hn | hn
      · exact ⟨front, List.mem_cons_self, hinner n hn⟩
      · exact hself n (List.mem_cons_of_mem _ hn)

/-- The items of a sorted walk come in order, each from a path that was to be taken up. -/
theorem Sorted.located (h : w.Sorted names) (hsorted : w.rules.settings.sorted = true)
    (fs : FileSystem) :
    ∃ found, Path.InOrder w.rules.settings.source found ((w.located fs).map Prod.fst) ∧
      ∀ n ∈ found, ∃ front ∈ names, front <+: n := by
  -- what is found behind a step goes on from what was to be taken up then, and so from `names`
  induction w using run_induct fs generalizing names with
  | h w ih =>
    rw [located_step]
    cases hstep : w.step fs with
    | finished => exact ⟨[], ⟨rfl, by simp, .nil⟩, by simp⟩
    | moved w' =>
      have hrules := rules_of_step (walk?_of_moved hstep)
      obtain ⟨names', hnames', hinit⟩ := h.moved hsorted hstep
      obtain ⟨found, hfound, hfrom⟩ := ih w' (walk?_of_moved hstep) hnames' (by rwa [hrules])
      rw [hrules] at hfound
      refine ⟨found, hfound, ?_⟩
      intro n hn
      obtain ⟨middle, hmiddle, hn⟩ := hfrom n hn
      obtain ⟨front, hfront, hmiddle⟩ := hinit middle hmiddle
      exact ⟨front, hfront, hmiddle.trans hn⟩
    | yielded i w' =>
      have hrules := rules_of_step (walk?_of_yielded hstep)
      obtain ⟨front, later, rfl, hhead, hlater⟩ := h.yielded hstep
      obtain ⟨found, hfound, hfrom⟩ := ih w' (walk?_of_yielded hstep) hlater (by rwa [hrules])
      rw [hrules] at hfound
      refine ⟨front :: found, ⟨?_, ?_, ?_⟩, ?_⟩
      · rw [List.map_cons, List.map_cons, hhead, ← hfound.below]
      · exact List.forall_mem_cons.2 ⟨h.legal front List.mem_cons_self, hfound.legal⟩
      · refine List.pairwise_cons.2 ⟨?_, hfound.forks⟩
        intro n hn
        obtain ⟨middle, hmiddle, more, rfl⟩ := hfrom n hn
        have hfork := (List.pairwise_cons.1 h.forks).1 middle hmiddle
        simpa using hfork.extend [] more
      · refine List.forall_mem_cons.2 ⟨⟨front, List.mem_cons_self, List.prefix_refl front⟩, ?_⟩
        intro n hn
        obtain ⟨middle, hmiddle, hn⟩ := hfrom n hn
        exact ⟨middle, List.mem_cons_of_mem _ hmiddle, hn⟩

/-- On a file system that has not changed: what is pending in a directory stands there, and the
directories around it can be opened. -/
structure Settled (fs : FileSystem) (w : Walk) : Prop where
  fresh : w.fresh = true → w.stack = []
  lists : ∀ frame ∈ w.stack, ∀ v, .ok v ∈ frame.pending → Lists fs frame.directory v
  outer : ∀ frame ∈ w.stack.tail, ∃ l node, fs.find frame.directory true = .ok (l, node)

theorem settled_of_fresh (fs : FileSystem) (r : Rules) : Settled fs ⟨r, true, []⟩ where
  fresh _ := rfl
  lists := List.forall_mem_nil _
  outer := List.forall_mem_nil _

section Settled

variable {r : Rules} {directory : Path} {outer : List Frame} {v : Visit}
  {item : Except (Path × IoError) Visit} {pending : List (Except (Path × IoError) Visit)}

theorem Settled.tail (h : Settled fs ⟨r, false, ⟨directory, item :: pending⟩ :: outer⟩) :
    Settled fs ⟨r, false, ⟨directory, pending⟩ :: outer⟩ := by
  obtain ⟨-, hlists, houter⟩ := h
  obtain ⟨hfirst, hrest⟩ := List.forall_mem_cons.1 hlists
  refine ⟨by simp, List.forall_mem_cons.2 ⟨?_, hrest⟩, houter⟩
  intro v hv
  exact hfirst v (List.mem_cons_of_mem item hv)

/-- Around a node that is pending all directories can be opened. -/
theorem Settled.find (h : Settled fs ⟨r, false, ⟨directory, .ok v :: pending⟩ :: outer⟩) :
    ∀ frame ∈ Frame.mk directory pending :: outer,
      ∃ l node, fs.find frame.directory true = .ok (l, node) := by
  obtain ⟨-, hlists, houter⟩ := h
  obtain ⟨here, mode, nodes, -, -, hfind, -⟩ := hlists _ List.mem_cons_self v List.mem_cons_self
  exact List.forall_mem_cons.2 ⟨⟨here, _, hfind⟩, houter⟩

theorem Settled.opened (h : Settled fs ⟨r, false, ⟨directory, .ok v :: pending⟩ :: outer⟩) :
    ∃ locations, Opened fs (directory :: outer.map Frame.directory) locations := by
  have hall (frames : List Frame)
      (hframes : ∀ frame ∈ frames, ∃ l node, fs.find frame.directory true = .ok (l, node)) :
      ∃ locations, Opened fs (frames.map Frame.directory) locations := by
    induction frames with
    | nil => exact ⟨[], .nil⟩
    | cons frame rest ih =>
      obtain ⟨⟨l, node, hfind⟩, hrest⟩ := List.forall_mem_cons.1 hframes
      obtain ⟨locations, hopened⟩ := ih hrest
      exact ⟨l :: locations, .cons ⟨node, hfind⟩ hopened⟩
  exact hall _ h.find

/-- What is listed next stands in its directory too. -/
theorem Settled.after {o : Outcome} (h : Settled fs w) (hfresh : w.fresh = false)
    (hfind : ∀ frame ∈ w.stack, ∃ l node, fs.find frame.directory true = .ok (l, node))
    (hafter : (w.after fs o).walk? = some w') : Settled fs w' := by
  cases o with
  | item i =>
    cases hafter
    exact h
  | nothing =>
    cases hafter
    exact h
  | directory p =>
    cases hafter
    refine ⟨by simp [push, hfresh], List.forall_mem_cons.2 ⟨?_, h.lists⟩, hfind⟩
    intro v hv
    exact lists_of_mem_listing hv

end Settled

theorem Settled.step (h : Settled fs w) (hstep : (w.step fs).walk? = some w') :
    Settled fs w' := by
  obtain ⟨rules, fresh, stack⟩ := w
  cases fresh with
  | true =>
    obtain rfl : stack = [] := h.fresh rfl
    have hsettled : Settled fs ⟨rules, false, []⟩ := ⟨by simp, h.lists, h.outer⟩
    exact hsettled.after rfl (List.forall_mem_nil _) hstep
  | false =>
    match stack, h, hstep with
    | [], h, hstep => cases hstep
    | ⟨directory, []⟩ :: outer, h, hstep =>
      cases hstep
      refine ⟨by simp, fun frame hframe => h.lists frame (List.mem_cons_of_mem _ hframe), ?_⟩
      exact fun frame hframe => h.outer frame (List.mem_of_mem_tail hframe)
    | ⟨directory, .error (p, e) :: pending⟩ :: outer, h, hstep =>
      cases hstep
      exact h.tail
    | ⟨directory, .ok v :: pending⟩ :: outer, h, hstep => exact h.tail.after rfl h.find hstep

/-- An item is told of the path that was taken up for it. -/
theorem Settled.concerns (h : Settled fs w) (hstep : w.step fs = .yielded i w') :
    Concerns w.rules.settings.root (w.todo.headD w.rules.settings.source) i := by
  have hafter {w : Walk} {o : Outcome} (h : w.after fs o = .yielded i w') : o = .item i := by
    cases o <;> cases h
    rfl
  obtain ⟨rules, fresh, stack⟩ := w
  cases fresh with
  | true => exact concerns_of_begin (hafter (w := ⟨rules, false, stack⟩) hstep)
  | false =>
    match stack, h, hstep with
    | [], h, hstep => cases hstep
    | ⟨directory, []⟩ :: outer, h, hstep => cases hstep
    | ⟨directory, .error (p, e) :: pending⟩ :: outer, h, hstep =>
      cases hstep
      exact .fault
    | ⟨directory, .ok v :: pending⟩ :: outer, h, hstep =>
      obtain ⟨locations, hopened⟩ := h.opened
      exact concerns_of_visit hopened
        (hafter (w := ⟨rules, false, ⟨directory, pending⟩ :: outer⟩) hstep)

theorem Settled.located (h : Settled fs w) :
    ∀ x ∈ w.located fs, Concerns w.rules.settings.root x.1 x.2 := by
  induction w using run_induct fs with
  | h w ih =>
    have hbehind {w' : Walk} (hw : (w.step fs).walk? = some w') :
        ∀ x ∈ w'.located fs, Concerns w.rules.settings.root x.1 x.2 := by
      rw [← rules_of_step hw]
      exact ih w' hw (h.step hw)
    rw [located_step]
    cases hstep : w.step fs with
    | finished => exact List.forall_mem_nil _
    | moved w' => exact hbehind (walk?_of_moved hstep)
    | yielded i w' =>
      exact List.forall_mem_cons.2 ⟨h.concerns hstep, hbehind (walk?_of_yielded hstep)⟩

end Walk

end TreeArchive
