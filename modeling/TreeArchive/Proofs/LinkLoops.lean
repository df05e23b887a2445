import TreeArchive.Proofs.Descent
import TreeArchive.Proofs.Lazy
import TreeArchive.Proofs.Omitted
import TreeArchive.Proofs.OutputSpot

/-!
Links that lead back to a directory that is open. Each of them is told of and none is entered, so a
walk that follows links ends, however they lead, and a run that meets such a link fails.
-/
namespace TreeArchive

open FileSystem

namespace Settings

variable {s : Settings} {fs : FileSystem} {names : List Name} {opened opened' : List Location}

theorem Reached.of_nil (h : s.Reached fs [] opened) :
    ∃ l node, opened = [l] ∧ fs.find s.source true = .ok (l, node) := by
  generalize hnames : ([] : List Name) = names at h
  cases h with
  | source h => exact ⟨_, _, rfl, h⟩
  | directory => simp at hnames
  | link => simp at hnames

/-- With or without a link, the last name leads to the innermost directory. -/
theorem Reached.of_concat {name : Name} (h : s.Reached fs (names ++ [name]) opened) :
    ∃ l node outer, opened = l :: outer ∧ s.Reached fs names outer ∧
      fs.find (s.source.below (names ++ [name])) true = .ok (l, node) := by
  generalize hnames : names ++ [name] = all at h
  cases h with
  | source => simp at hnames
  | directory outer legal h =>
    obtain ⟨rfl, -⟩ := List.append_inj' hnames rfl
    exact ⟨_, _, _, rfl, outer, find_true_of_ne_link h (by simp [Node.kind])⟩
  | link outer legal followed hlink h noLoop =>
    obtain ⟨rfl, -⟩ := List.append_inj' hnames rfl
    exact ⟨_, _, _, rfl, outer, h⟩

/-- The directories that are open hang on the names alone. -/
theorem Reached.unique (h : s.Reached fs names opened) (h' : s.Reached fs names opened') :
    opened = opened' := by
  induction names using List.reverseRecOn generalizing opened opened' with
  | nil =>
    obtain ⟨l, node, rfl, hfind⟩ := h.of_nil
    obtain ⟨l', node', rfl, hfind'⟩ := h'.of_nil
    rw [(Prod.mk.inj (Except.ok.inj (hfind.symm.trans hfind'))).1]
  | append_singleton names name ih =>
    obtain ⟨l, node, outer, rfl, houter, hfind⟩ := h.of_concat
    obtain ⟨l', node', outer', rfl, houter', hfind'⟩ := h'.of_concat
    rw [(Prod.mk.inj (Except.ok.inj (hfind.symm.trans hfind'))).1, ih houter houter']

end Settings

namespace Rules

variable {r : Rules} {fs : FileSystem} {front names : List Name} {name : Name} {p : Path}
  {paths : List Path} {opened : List Location} {here : Location}

/-- A link stands in a directory that a walk gets to, and leads to one of those that are open there.
It may be left out itself. -/
structure Loop (r : Rules) (fs : FileSystem) (front : List Name) (name : Name) : Prop where
  visible : r.Visible front
  legal : isLegalName name = true
  back : ∃ opened there target l mode nodes, r.settings.Reached fs front opened ∧
    fs.find (r.settings.source.below (front ++ [name])) false = .ok (there, .link target) ∧
    fs.find (r.settings.source.below (front ++ [name])) true = .ok (l, .directory mode nodes) ∧
    l ∈ opened

/-- What is said of a link that leads to an open directory. -/
def loopText (link directory : Path) : String :=
  let text := s!"{link.display} points to an ancestor {directory.display}"
  s!"File system loop found: {text}"

theorem checkLoop_of_mem (child : Path) (hopened : Opened fs paths opened) (h : here ∈ opened) :
    ∃ directory node, fs.find directory true = .ok (here, node) ∧
      checkLoop fs child here paths =
        .error ⟨some child, .custom (loopText child directory)⟩ := by
  induction hopened with
  | nil => cases h
  | @cons p l paths locations hp hrest ih =>
    obtain ⟨node, hfind⟩ := hp
    have hat : openedAt fs p = .ok l := by simp [openedAt, hfind, bind, Except.bind]
    rw [checkLoop, hat]
    by_cases heq : l = here
    · subst heq
      exact ⟨p, node, hfind, if_pos rfl⟩
    · obtain ⟨directory, found, hdirectory, hcheck⟩ :=
        ih ((List.mem_cons.1 h).resolve_left (Ne.symm heq))
      refine ⟨directory, found, hdirectory, ?_⟩
      rw [← hcheck]
      exact if_neg heq

/-- A link that leads to an open directory comes to a fault, also where it is left out. -/
theorem visit_of_loop {l : Location} {mode : Nat} {nodes : List (Name × Node)}
    (hfollow : r.settings.followLinks = true) (hopened : Opened fs paths opened)
    (hfind : fs.find p true = .ok (l, .directory mode nodes)) (hl : l ∈ opened) :
    ∃ directory node, fs.find directory true = .ok (l, node) ∧
      r.visit fs paths ⟨p, .link, false⟩ =
        .item (.error (.walk p (.custom (loopText p directory)))) := by
  obtain ⟨directory, node, hdirectory, hcheck⟩ := checkLoop_of_mem p hopened hl
  refine ⟨directory, node, hdirectory, ?_⟩
  simp [visit, look, hfollow, follow, hfind, Node.kind, hcheck, failure, bind, Except.bind]

/-- A walk tells of every link that leads to an open directory. -/
theorem Loop.mem_results (h : r.Loop fs front name) (hfollow : r.settings.followLinks = true) :
    let link := r.settings.source.below (front ++ [name])
    ∃ directory l node node', fs.find link true = .ok (l, node) ∧
      fs.find directory true = .ok (l, node') ∧
      .error (.walk link (.custom (loopText link directory))) ∈ r.results fs [] (r.begin fs) := by
  obtain ⟨opened, there, target, l, mode, nodes, hreached, hlink, hfind, hl⟩ := h.back
  obtain ⟨paths, hopened, hp, hitems⟩ := mem_results_of_reached hreached h.visible
  obtain ⟨directory, node, hdirectory, hvisit⟩ := visit_of_loop hfollow hopened hfind hl
  refine ⟨directory, l, _, node, hfind, hdirectory, mem_results_of_visit h.legal hitems hp hlink ?_⟩
  rw [Node.kind, hvisit]
  exact List.mem_singleton_self _

/-- A link that leads to an open directory is not entered. -/
theorem Loop.visit_ne {node : Node} (h : r.Loop fs front name)
    (hv : r.Visited fs front here opened name node paths) :
    r.visit fs paths (r.listed front name node) ≠ .directory p := by
  obtain ⟨all, there, target, l, mode, nodes, hreached, hlink, hfind, hl⟩ := h.back
  obtain rfl := hreached.unique hv.reached
  have hkind : Kind.link = node.kind := hv.asListed.2.kind _ _ hlink
  intro hvisit
  rcases ((visit_eq_directory hv.opened).1 hvisit).2.2 with
    hdir | ⟨-, -, l', mode', nodes', hfind', hout⟩
  · cases hkind.trans hdir
  · obtain ⟨rfl, -⟩ := Prod.mk.inj (Except.ok.inj (hfind.symm.trans hfind'))
    exact hout hl

/-- The open directories of a walk, the innermost first: its source, and from there each one in the
one before it. What is pending in a directory is listed there. -/
inductive Open (r : Rules) (fs : FileSystem) : List Name → List Frame → Prop where
  | source {here : Location} {mode : Nat} {nodes : List (Name × Node)}
      {pending : List (Except (Path × IoError) Visit)}
      (hfind : fs.find r.settings.source true = .ok (here, .directory mode nodes))
      (hpending : pending ⊆ r.listing fs r.settings.source) :
      Open r fs [] [⟨r.settings.source, pending⟩]
  | inner {names : List Name} {here : Location} {opened : List Location} {name : Name} {node : Node}
      {pending : List (Except (Path × IoError) Visit)} {frames : List Frame}
      (outer : Open r fs names frames)
      (hv : r.Visited fs names here opened name node (frames.map Frame.directory))
      (hvisit : r.visit fs (frames.map Frame.directory) (r.listed names name node) =
        .directory (r.settings.source.below (names ++ [name])))
      (hpending : pending ⊆ r.listing fs (r.settings.source.below (names ++ [name]))) :
      Open r fs (names ++ [name]) (⟨r.settings.source.below (names ++ [name]), pending⟩ :: frames)

section Open

variable {frames : List Frame} {directory : Path} {v : Visit}
  {item : Except (Path × IoError) Visit} {pending : List (Except (Path × IoError) Visit)}

theorem Open.length_le (h : r.Open fs names frames) : frames.length ≤ fs.maxDepth := by
  cases h with
  | source hfind hpending => exact Nat.mul_pos (Nat.succ_pos _) (Nat.succ_pos _)
  | inner outer hv hvisit hpending =>
    have hdepth := hv.depth_lt hvisit
    rwa [List.length_map] at hdepth

theorem Open.tail (h : r.Open fs names (⟨directory, item :: pending⟩ :: frames)) :
    r.Open fs names (⟨directory, pending⟩ :: frames) := by
  cases h with
  | source hfind hpending => exact .source hfind (List.subset_of_cons_subset hpending)
  | inner outer hv hvisit hpending =>
    exact .inner outer hv hvisit (List.subset_of_cons_subset hpending)

theorem Open.outer {frame : Frame} (h : r.Open fs names (frame :: frames)) :
    frames = [] ∨ ∃ names, r.Open fs names frames := by
  cases h with
  | source hfind hpending => exact .inl rfl
  | inner outer hv hvisit hpending => exact .inr ⟨_, outer⟩

/-- What is pending in the innermost directory is what the walk comes to next. -/
theorem Open.visited (h : r.Open fs names (⟨directory, .ok v :: pending⟩ :: frames)) :
    ∃ here opened name node, v = r.listed names name node ∧
      r.Visited fs names here opened name node (directory :: frames.map Frame.directory) := by
  cases h with
  | source hfind hpending =>
    obtain ⟨name, node, rfl, hv⟩ := visited_of_mem_source hfind (hpending List.mem_cons_self)
    exact ⟨_, _, name, node, rfl, hv⟩
  | inner outer hv hvisit hpending =>
    obtain ⟨l, name, node, rfl, hchild⟩ := hv.exists_child hvisit (hpending List.mem_cons_self)
    exact ⟨l, _, name, node, rfl, hchild⟩

/-- A link that leads to an open directory is none of the directories that are open. -/
theorem Open.not_mem_of_loop (h : r.Open fs names frames) (hloop : r.Loop fs front name) :
    r.settings.source.below (front ++ [name]) ∉ frames.map Frame.directory := by
  obtain ⟨opened, there, target, l, mode, nodes, hreached, -, -, -⟩ := hloop.back
  have hlegal : ∀ n ∈ front ++ [name], Path.Ordinary n := fun n hn =>
    Path.ordinary_of_isLegalName (List.forall_mem_append.2
      ⟨hreached.legal, List.forall_mem_singleton.2 hloop.legal⟩ n hn)
  induction h with
  | source hfind hpending =>
    rw [List.map_singleton, List.mem_singleton]
    intro heq
    have hnames := Path.below_injective hlegal (List.forall_mem_nil _) heq
    simp at hnames
  | inner outer hv hvisit hpending ih =>
    rw [List.map_cons, List.mem_cons, not_or]
    refine ⟨?_, ih⟩
    intro heq
    have hordinary := fun n hn => Path.ordinary_of_isLegalName (List.forall_mem_append.2
      ⟨hv.reached.legal, List.forall_mem_singleton.2 hv.asListed.1⟩ n hn)
    obtain ⟨rfl, hname⟩ := List.append_inj' (Path.below_injective hlegal hordinary heq) rfl
    obtain rfl := List.singleton_inj.1 hname
    exact hloop.visit_ne hv hvisit

end Open

end Rules

namespace Walk

open Rules

variable {w w' : Walk} {fs : FileSystem}

/-- One walk becomes the other by some steps, while the file system stays as it is. -/
def Onward (fs : FileSystem) : Walk → Walk → Prop :=
  Relation.ReflTransGen fun w w' => (w.step fs).walk? = some w'

/-- A walk has opened its directories one from the other. -/
structure Entered (fs : FileSystem) (w : Walk) : Prop where
  fresh : w.fresh = true → w.stack = []
  frames : w.stack = [] ∨ ∃ names, w.rules.Open fs names w.stack

theorem entered_of_fresh (fs : FileSystem) (r : Rules) : Entered fs ⟨r, true, []⟩ :=
  ⟨fun _ => rfl, .inl rfl⟩

theorem entered_of_begin {r : Rules}
    (hstep : (after ⟨r, false, []⟩ fs (r.begin fs)).walk? = some w') : Entered fs w' := by
  have hstays : Entered fs ⟨r, false, []⟩ := ⟨fun _ => rfl, .inl rfl⟩
  rcases r.begin_cases fs with ⟨i, hbegin, -⟩ | ⟨hbegin, here, mode, nodes, hfind⟩ | hbegin
  · rw [hbegin] at hstep
    cases hstep
    exact hstays
  · rw [hbegin] at hstep
    cases hstep
    exact ⟨by simp [push], .inr ⟨[], .source hfind (List.Subset.refl _)⟩⟩
  · rw [hbegin] at hstep
    cases hstep
    exact hstays

theorem entered_of_visit {r : Rules} {directory : Path} {v : Visit} {names : List Name}
    {pending : List (Except (Path × IoError) Visit)} {outer : List Frame}
    (hopen : r.Open fs names (⟨directory, .ok v :: pending⟩ :: outer))
    (hstep : (after ⟨r, false, ⟨directory, pending⟩ :: outer⟩ fs
      (r.visit fs (directory :: outer.map Frame.directory) v)).walk? = some w') :
    Entered fs w' := by
  have hstays : Entered fs ⟨r, false, ⟨directory, pending⟩ :: outer⟩ :=
    ⟨by simp, .inr ⟨names, hopen.tail⟩⟩
  cases hvisit : r.visit fs (directory :: outer.map Frame.directory) v with
  | item i =>
    rw [hvisit] at hstep
    cases hstep
    exact hstays
  | nothing =>
    rw [hvisit] at hstep
    cases hstep
    exact hstays
  | directory p =>
    obtain rfl := eq_of_visit hvisit
    obtain ⟨here, opened, name, node, rfl, hv⟩ := hopen.visited
    rw [hvisit] at hstep
    cases hstep
    exact ⟨by simp [push],
      .inr ⟨names ++ [name], .inner hopen.tail hv hvisit (List.Subset.refl _)⟩⟩

theorem Entered.step (h : Entered fs w) (hstep : (w.step fs).walk? = some w') : Entered fs w' := by
  obtain ⟨r, fresh, stack⟩ := w
  cases fresh with
  | true =>
    obtain rfl : stack = [] := h.fresh rfl
    exact entered_of_begin hstep
  | false =>
    match stack, h.frames, hstep with
    | [], _, hstep => cases hstep
    | ⟨directory, []⟩ :: outer, hframes, hstep =>
      cases hstep
      obtain ⟨names, hopen⟩ := hframes.resolve_left (by simp)
      exact ⟨by simp, hopen.outer⟩
    | ⟨directory, .error (p, e) :: pending⟩ :: outer, hframes, hstep =>
      cases hstep
      obtain ⟨names, hopen⟩ := hframes.resolve_left (by simp)
      exact ⟨by simp, .inr ⟨names, hopen.tail⟩⟩
    | ⟨directory, .ok v :: pending⟩ :: outer, hframes, hstep =>
      obtain ⟨names, hopen⟩ := hframes.resolve_left (by simp)
      exact entered_of_visit hopen hstep

theorem Entered.onward (h : Entered fs w) (hsteps : Onward fs w w') :
    Entered fs w' ∧ w'.rules = w.rules := by
  induction hsteps with
  | refl => exact ⟨h, rfl⟩
  | tail hsteps hstep ih => exact ⟨ih.1.step hstep, (rules_of_step hstep).trans ih.2⟩

/-- Whatever links there are, a walk never has more directories open than the file system allows. -/
theorem Entered.length_opened_le (h : Entered fs w) : w.opened.length ≤ fs.maxDepth := by
  rw [Walk.opened, List.length_map]
  rcases h.frames with hnone | ⟨names, hopen⟩
  · rw [hnone]
    exact Nat.zero_le _
  · exact hopen.length_le

/-- No link that leads to an open directory is entered. -/
theorem Entered.not_mem_of_loop {front : List Name} {name : Name} (h : Entered fs w)
    (hloop : w.rules.Loop fs front name) :
    w.rules.settings.source.below (front ++ [name]) ∉ w.opened := by
  rcases h.frames with hnone | ⟨names, hopen⟩
  · rw [Walk.opened, hnone]
    exact List.not_mem_nil
  · exact hopen.not_mem_of_loop hloop

/-- As many pulls as there are items give all of them, and another one gives nothing. -/
theorem pulled_items (fs : FileSystem) (w : Walk) :
    ∃ rest, w.pulled fs (w.items fs).length = some (w.items fs, rest) ∧ rest.next fs = none := by
  fun_induction items fs w with
  | case1 w hnone => exact ⟨w, rfl, hnone⟩
  | case2 w i w' hnext ih =>
    obtain ⟨rest, hpulled, hend⟩ := ih
    refine ⟨rest, ?_, hend⟩
    simp [pulled, hnext, hpulled]

end Walk

namespace Pack

variable {s : Settings} {fs fs₀ fs₁ : FileSystem} {replaced : Bool} {handle : Handle}
  {names front : List Name} {opened : List Location}

variable (h : Created fs s.output fs₀ replaced fs₁ handle)
  (hpoints : ¬fs.PointsToDirectory handle.location)
include h hpoints

section Entered

variable {p : Path} {l there : Location} {mode mode' : Nat} {nodes nodes' : List (Name × Node)}
  (hfind : fs.find p true = .ok (l, .directory mode nodes))
include hfind

theorem Created.find_entered {follow : Bool}
    (hat : fs.find p follow = .ok (there, .directory mode' nodes')) :
    ∃ mode nodes, fs₁.find p follow = .ok (there, .directory mode nodes) := by
  have havoids := avoids_of_directory hfind rfl h.kind hpoints
  obtain ⟨node, hfind₁, hkind, -⟩ := h.find_of_avoids havoids hat
  obtain ⟨mode, nodes, rfl⟩ := Node.exists_of_kind_directory hkind
  exact ⟨mode, nodes, hfind₁⟩

theorem Created.find_link {target : Path} (hlink : fs.find p false = .ok (there, .link target)) :
    fs₁.find p false = .ok (there, .link target) := by
  have havoids := avoids_of_directory hfind rfl h.kind hpoints
  obtain ⟨node, hlink₁, -, hsame⟩ := h.find_of_avoids havoids hlink
  rw [hlink₁, hsame target rfl]

end Entered

/-- A walk gets to a directory also when the output has been created. -/
theorem Created.reached {r : Rules} (hreached : r.settings.Reached fs names opened) :
    r.settings.Reached fs₁ names opened := by
  induction hreached with
  | source hfind =>
    obtain ⟨mode, nodes, hfind₁⟩ := h.find_entered hpoints hfind hfind
    exact .source hfind₁
  | directory outer legal hfind ih =>
    have htrue := find_true_of_ne_link hfind (by simp [Node.kind])
    obtain ⟨mode, nodes, hfind₁⟩ := h.find_entered hpoints htrue hfind
    exact .directory ih legal hfind₁
  | link outer legal followed hlink hfind noLoop ih =>
    obtain ⟨mode, nodes, hfind₁⟩ := h.find_entered hpoints hfind hfind
    exact .link ih legal followed (h.find_link hpoints hfind hlink) hfind₁ noLoop

theorem Created.loop {r : Rules} {name : Name} (hloop : r.Loop fs front name) :
    r.Loop fs₁ front name := by
  obtain ⟨opened, there, target, l, mode, nodes, hreached, hlink, hfind, hl⟩ := hloop.back
  obtain ⟨mode', nodes', hfind₁⟩ := h.find_entered hpoints hfind hfind
  exact ⟨hloop.visible, hloop.legal, opened, there, target, l, mode', nodes',
    h.reached hpoints hreached, h.find_link hpoints hfind hlink, hfind₁, hl⟩

omit h hpoints

/-- A run that succeeds has met no link to an open directory when its output was created. -/
theorem exists_created_of_success {w : Walk} {report : Report} (hwalk : Walk.ofSettings s = .ok w)
    (hfollow : s.followLinks = true) (hok : (packTree s fs).result = .ok report) :
    ∃ fs₀ replaced fs₁ handle, Created fs s.output fs₀ replaced fs₁ handle ∧
      ∀ front name, ¬Rules.Loop ⟨s, w.rules.exclusions, [s.output.normalize]⟩ fs₁ front name := by
  have hlate : ¬FailsEarly s fs := by
    rintro ⟨f, hf, -⟩
    cases hok.symm.trans hf
  obtain ⟨w', fs₀, replaced, fs₁, handle, -, hwalk', hcreated⟩ := exists_created_of_late hlate
  refine ⟨fs₀, replaced, fs₁, handle, hcreated, ?_⟩
  intro front name hloop
  obtain ⟨directory, l, node, node', -, -, hmem⟩ := hloop.mem_results hfollow
  exact faultless_of_success hwalk hcreated hok _ hmem ⟨_, _, rfl⟩

end Pack

namespace Walk

/-- Where links are followed, a walk ends whatever they lead to: as many items as it has can be
pulled, also behind faults, and then there is none. Their number and that of the directories that
are open together are bounded by the directories and the height of the tree. A link, left out or
not, that leads to a directory which is open is told of as a fault and never entered. So no run
succeeds that comes to such a link when its output has been created; it comes to one that was there
before, unless the output has replaced a link to a directory. -/
theorem following_links_ends {s : Settings} {w : Walk} (hwalk : Walk.ofSettings s = .ok w)
    (hfollow : s.followLinks = true) (skips : List Path) (fs : FileSystem) :
    let walk := skips.foldl skip w
    let packed : Rules := ⟨s, w.rules.exclusions, [s.output.normalize]⟩
    ((∃ rest, walk.pulled fs (walk.items fs).length = some (walk.items fs, rest) ∧
        rest.next fs = none) ∧
      (walk.items fs).length ≤ fs.breadth ^ fs.maxDepth ∧
      ∀ w', Onward fs walk w' → w'.opened.length ≤ fs.maxDepth) ∧
    (∀ front name, walk.rules.Loop fs front name →
      let link := s.source.below (front ++ [name])
      (∃ directory l node node', fs.find link true = .ok (l, node) ∧
        fs.find directory true = .ok (l, node') ∧
        .error (.walk link (.custom (Rules.loopText link directory))) ∈ walk.items fs) ∧
      ∀ w', Onward fs walk w' → link ∉ w'.opened) ∧
    (∀ report, (Pack.packTree s fs).result = .ok report → ∃ fs₀ replaced fs₁ handle,
      Pack.Created fs s.output fs₀ replaced fs₁ handle ∧
        ∀ front name, ¬packed.Loop fs₁ front name) ∧
    ∀ front name spot, packed.Loop fs front name → fs.locate s.output false = .ok spot →
      ¬fs.PointsToDirectory spot.location → ∃ f, (Pack.packTree s fs).result = .error f := by
  obtain ⟨x, hx, rfl⟩ := ofSettings_eq_ok.1 hwalk
  have hskipped : skips.foldl skip ⟨⟨s, x, []⟩, true, []⟩ =
      ⟨⟨s, x, skips.map Path.normalize⟩, true, []⟩ := foldl_skip skips _
  simp only [hskipped]
  have hentered := entered_of_fresh fs ⟨s, x, skips.map Path.normalize⟩
  have hitems := items_of_fresh fs ⟨s, x, skips.map Path.normalize⟩
  refine ⟨⟨pulled_items fs _, ?_, ?_⟩, ?_, ?_, ?_⟩
  · rw [hitems]
    exact Rules.length_results_begin_le _ fs
  · intro w' hsteps
    exact (hentered.onward hsteps).1.length_opened_le
  · intro front name hloop
    constructor
    · rw [hitems]
      exact hloop.mem_results hfollow
    · intro w' hsteps
      obtain ⟨hw', hrules⟩ := hentered.onward hsteps
      have hloop' : w'.rules.Loop fs front name := by rwa [hrules]
      have hnot := hw'.not_mem_of_loop hloop'
      rwa [hrules] at hnot
  · intro report hok
    exact Pack.exists_created_of_success hwalk hfollow hok
  · intro front name spot hloop hspot hpoints
    cases hresult : (Pack.packTree s fs).result with
    | error f => exact ⟨f, rfl⟩
    | ok report =>
      obtain ⟨fs₀, replaced, fs₁, handle, hcreated, hnone⟩ :=
        Pack.exists_created_of_success hwalk hfollow hresult
      obtain ⟨spot', hspot', hl⟩ := hcreated.spot
      obtain rfl := Except.ok.inj (hspot.symm.trans hspot')
      exact absurd (hcreated.loop (hl ▸ hpoints) hloop) (hnone front name)

/-- A directory with a link to the root above it. The link is entered, and from the root the same
directory once more; there the link leads back. -/
def upwardTree : FileSystem :=
  .ofEntries 0
    [(.ofString "pkg", .directory 0o755 [(.ofString "up", .link (.ofString "/"))])]
    (by cbv)

theorem reached_upwardTree : linkedSettings.Reached upwardTree [.ofString "up", .ofString "pkg"]
    [[.ofString "pkg"], [], [.ofString "pkg"]] := by
  obtain ⟨mode, nodes, hsource⟩ : ∃ mode nodes, upwardTree.find linkedSettings.source true =
      .ok ([.ofString "pkg"], .directory mode nodes) := ⟨_, _, by cbv⟩
  obtain ⟨mode', nodes', hroot⟩ : ∃ mode nodes,
      upwardTree.find (linkedSettings.source.below [.ofString "up"]) true =
        .ok ([], .directory mode nodes) := ⟨_, _, by cbv⟩
  obtain ⟨mode'', nodes'', hagain⟩ : ∃ mode nodes,
      upwardTree.find (linkedSettings.source.below [.ofString "up", .ofString "pkg"]) false =
        .ok ([.ofString "pkg"], .directory mode nodes) := ⟨_, _, by cbv⟩
  have hup : linkedSettings.Reached upwardTree [.ofString "up"] [[], [.ofString "pkg"]] :=
    .link (.source hsource) (by cbv) (by cbv) (by cbv) hroot (by decide)
  exact .directory hup (by cbv) hagain

theorem loop_upwardTree {r : Rules} (hsettings : r.settings = linkedSettings)
    (hup : r.keeps (linkedSettings.source.below [.ofString "up"]) = true)
    (hpkg : r.keeps (linkedSettings.source.below [.ofString "up", .ofString "pkg"]) = true) :
    r.Loop upwardTree [.ofString "up", .ofString "pkg"] (.ofString "up") where
  visible := by
    have hfirst : r.Visible ([] ++ [.ofString "up"]) :=
      Rules.visible_concat.2 ⟨Rules.visible_nil, by rwa [hsettings]⟩
    exact Rules.visible_concat.2 ⟨hfirst, by rwa [hsettings]⟩
  legal := by cbv
  back := by
    obtain ⟨mode, nodes, hroot⟩ : ∃ mode nodes, upwardTree.find (linkedSettings.source.below
        [.ofString "up", .ofString "pkg", .ofString "up"]) true =
          .ok ([], .directory mode nodes) := ⟨_, _, by cbv⟩
    rw [hsettings]
    exact ⟨_, [.ofString "pkg", .ofString "up"], .ofString "/", [], mode, nodes,
      reached_upwardTree, by cbv, hroot, by decide⟩

/-- The link is told of where it leads back, and the run fails. -/
theorem following_links_ends_upward :
    (∃ directory, .error (.walk (.ofString "/pkg/up/pkg/up")
      (.custom (Rules.loopText (.ofString "/pkg/up/pkg/up") directory))) ∈
        Walk.items upwardTree ⟨⟨linkedSettings, plainExclusions, []⟩, true, []⟩) ∧
    ∃ f, (Pack.packTree linkedSettings upwardTree).result = .error f := by
  have hwalk : Walk.ofSettings linkedSettings =
      .ok ⟨⟨linkedSettings, plainExclusions, []⟩, true, []⟩ := by cbv
  obtain ⟨-, htold, -, hfails⟩ := following_links_ends hwalk (by cbv) [] upwardTree
  have hlink : linkedSettings.source.below [.ofString "up", .ofString "pkg", .ofString "up"] =
      .ofString "/pkg/up/pkg/up" := by cbv
  constructor
  · obtain ⟨⟨directory, -, -, -, -, -, hmem⟩, -⟩ :=
      htold _ _ (loop_upwardTree rfl (by cbv) (by cbv))
    rw [← hlink]
    exact ⟨directory, hmem⟩
  · obtain ⟨spot, hspot, hl⟩ : ∃ spot, upwardTree.locate linkedSettings.output false = .ok spot ∧
        spot.location = [.ofString "pkg", .ofString "pkg.zip"] := ⟨_, by cbv, by cbv⟩
    refine hfails _ _ spot (loop_upwardTree rfl (by cbv) (by cbv)) hspot ?_
    -- nothing stands at the output
    rintro ⟨outer, name, target, budget, place, -, -, hlinked, -⟩
    rw [hl] at hlinked
    have hnone : upwardTree.get? [.ofString "pkg", .ofString "pkg.zip"] = none := by cbv
    cases hnone.symm.trans hlinked

end Walk

end TreeArchive
