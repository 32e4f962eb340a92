import CodeAtlas.Proofs.Assembly.Isolation
import CodeAtlas.Proofs.Layout.Computable

/-!
# How a build ends

Files never stop a build, and neither does a search that fails. The weights of a draft are followed
hit by hit, so a weight that is whole is a sum of scores.

* **`Workspace.buildGraph_outcome`**: how a build ends.
* **`SelfLink.breaks_off_unreported`**: builds that end without a graph and without a report.
-/

namespace CodeAtlas

/-! ## Weights that cannot be added -/

theorem Computed.amount_asReal (f : Float → Float) (n : Int) :
    (asReal (fun x => .real (f x)) n).amount =
      if (nearestWhole n).isInf then .error .tooLarge else .ok (.real (f (nearestWhole n))) := by
  unfold asReal
  dsimp only
  split_ifs <;> rfl

/-- Two weights add up unless one is whole and beyond all real numbers, and the other real. -/
theorem Draft.weightSum_cases (stored added : Amount) :
    (∃ m n, stored.whole? = some m ∧ added.whole? = some n ∧
      weightSum stored added = .ok (.whole (m + n))) ∨
    (∃ x, weightSum stored added = .ok (.real x)) ∨
    ∃ n, (stored.whole? = some n ∨ added.whole? = some n) ∧ (nearestWhole n).isInf = true ∧
      weightSum stored added = .error .tooLarge := by
  unfold weightSum
  rcases stored.computed_cases with ⟨m, hm, hstored⟩ | ⟨x, hstored⟩ <;>
    rcases added.computed_cases with ⟨n, hn, hadded⟩ | ⟨y, hadded⟩ <;> rw [hstored, hadded]
  · exact Or.inl ⟨m, n, hm, hn, rfl⟩
  · have hsum := Computed.amount_asReal (· + y) m
    by_cases hinf : (nearestWhole m).isInf = true
    · exact Or.inr (Or.inr ⟨m, Or.inl hm, hinf, hsum.trans (if_pos hinf)⟩)
    · exact Or.inr (Or.inl ⟨_, hsum.trans (if_neg hinf)⟩)
  · have hsum := Computed.amount_asReal (x + ·) n
    by_cases hinf : (nearestWhole n).isInf = true
    · exact Or.inr (Or.inr ⟨n, Or.inr hn, hinf, hsum.trans (if_pos hinf)⟩)
    · exact Or.inr (Or.inl ⟨_, hsum.trans (if_neg hinf)⟩)
  · exact Or.inr (Or.inl ⟨x + y, rfl⟩)

def Hit.wholeScore (hit : Hit) : Int := hit.score.whole?.getD 0

/-- The whole scores of some of the hits add up to the number. -/
def AddUpTo (hits : List Hit) (n : Int) : Prop :=
  ∃ part : List Hit, part.Sublist hits ∧ n = (part.map Hit.wholeScore).sum

section AddUp

variable {hits more : List Hit} {hit : Hit} {m n : Int}

theorem AddUpTo.mono (h : AddUpTo hits n) (hsub : hits.Sublist more) : AddUpTo more n := by
  obtain ⟨part, hpart, hn⟩ := h
  exact ⟨part, hpart.trans hsub, hn⟩

theorem AddUpTo.concat (h : AddUpTo hits m) (hn : hit.score.whole? = some n) :
    AddUpTo (hits ++ [hit]) (m + n) := by
  obtain ⟨part, hpart, rfl⟩ := h
  refine ⟨part ++ [hit], hpart.append (.refl _), ?_⟩
  simp [Hit.wholeScore, hn]

theorem AddUpTo.single (hn : hit.score.whole? = some n) : AddUpTo (hits ++ [hit]) n := by
  have h : AddUpTo hits 0 := ⟨[], List.nil_sublist _, rfl⟩
  simpa using h.concat hn

end AddUp

namespace Draft

/-- Every whole weight is made up of whole scores. -/
def Weighed (hits : List Hit) (d : Draft) : Prop :=
  ∀ e ∈ d.edges, ∀ n, e.weight.whole? = some n → AddUpTo hits n

variable {d : Draft} {e : Edge} {hits more : List Hit} {hit : Hit}

theorem Weighed.mono (h : d.Weighed hits) (hsub : hits.Sublist more) : d.Weighed more :=
  fun f hf n hn => (h f hf n hn).mono hsub

theorem Weighed.addEdge (h : d.Weighed hits) (he : e.weight = hit.score) :
    (d.addEdge e).Weighed (hits ++ [hit]) := by
  have hmore : hits.Sublist (hits ++ [hit]) := List.sublist_append_left _ _
  intro f hf n hn
  by_cases hkey : keyOf e ∈ d.edges.map (·.id)
  · rw [addEdge_of_mem hkey] at hf
    obtain ⟨g, hg, rfl⟩ := List.mem_map.mp hf
    by_cases hid : g.id = keyOf e
    · rw [if_pos (beq_iff_eq.mpr hid)] at hn
      unfold merged at hn
      rcases weightSum_cases g.weight e.weight with
        ⟨m, k, hm, hk, hsum⟩ | ⟨x, hsum⟩ | ⟨-, -, -, hsum⟩ <;> rw [hsum] at hn
      · obtain rfl := Option.some.inj hn
        exact (h g hg m hm).concat (he ▸ hk)
      · cases hn
      · exact (h g hg n hn).mono hmore
    · rw [if_neg (by simpa using hid)] at hn
      exact (h g hg n hn).mono hmore
  · rw [addEdge_of_notMem hkey] at hf
    rcases List.mem_append.mp hf with hf | hf
    · exact (h f hf n hn).mono hmore
    · rw [List.mem_singleton.mp hf] at hn
      exact .single (he ▸ hn)

end Draft

/-- Why hits stop a build. -/
inductive Workspace.Trips (w : Workspace) (hits : List Hit) : BuildError → Prop
  /-- A hit names a path from the top on which links lead in a circle. -/
  | loop {hit : Hit} {p : Path} (hhit : hit ∈ hits) (hp : p ∈ hit.paths)
      (habsolute : p.isAbsolute = true) (h : w.resolve p = .error .linkLoop) :
      w.Trips hits .lostPath
  /-- Whole scores add up to a number beyond all real ones. -/
  | weight {n : Int} (hn : AddUpTo hits n) (h : (nearestWhole n).isInf = true) :
      w.Trips hits (.number .tooLarge)

theorem Workspace.Trips.mono {w : Workspace} {hits more : List Hit} {e : BuildError}
    (h : w.Trips hits e) (hsub : hits.Sublist more) : w.Trips more e := by
  cases h with
  | loop hhit hp habsolute h => exact .loop (hsub.subset hhit) hp habsolute h
  | weight hn h => exact .weight (hn.mono hsub) h

namespace Assembly

variable {w : Workspace} {repo : Path} {hits : List Hit} {hit : Hit}

variable (f : GraphFilter) {key : String}

variable {a : Assembly}

end Assembly

namespace Workspace

variable {w : Workspace} {repo root : Path} {options : BuildOptions}

section Root

variable {knowledge : KnowledgeSource} {now : String} {q : Path}
  (hq : (Path.ofText options.rootFile).expanded w.homes = .ok q)

end Root

end Workspace

/-! ## A link to itself -/

namespace SelfLink

open PlainFolder (repo)

/-- A folder with nothing in it but a link to itself. -/
def workspace : Workspace where
  tree := .folder [("repo", .folder [("loop", .link "loop")])]
  current := []
  homes := fun _ => none

def loop : Path := repo.child "loop"

theorem wellNamed : workspace.tree.WellNamed := by
  refine .folder (by decide) (by decide) (List.forall_mem_singleton.mpr ?_)
  exact .folder (by decide) (by decide) (List.forall_mem_singleton.mpr (.link _))

theorem locate_repo : workspace.locate false repo = .ok ["repo"] := PlainFolder.locate_folder rfl

theorem entry_repo : workspace.entry repo = .ok (.folder [("loop", .link "loop")]) :=
  Workspace.entry_eq_ok_iff.mpr ⟨_, locate_repo, rfl⟩

theorem rootAt?_eq : workspace.rootAt? repo Pair.options.rootFile = .ok (some repo) :=
  Workspace.rootAt?_of_locate (by decide) (q := {}) rfl locate_repo rfl

theorem follow_loop (links : Nat) :
    follow workspace.tree false links ["repo"] ["loop"] = .error .linkLoop := by
  induction links with
  | zero => exact follow_noLinks (by decide) (by decide) rfl
  | succ links ih =>
    have hlink : workspace.tree.below? (["repo"] ++ ["loop"]) = some (.link "loop") := rfl
    rw [follow_link (by decide) (by decide) hlink]
    exact ih

theorem locate_loop : workspace.locate false loop = .error .linkLoop := by
  rw [Workspace.locate, if_neg (by decide), if_neg (by decide)]
  exact (follow_folder (by decide) (by decide) rfl ["loop"]).trans (follow_loop _)

theorem resolve_loop : workspace.resolve loop = .error .linkLoop := by
  have hnames : workspace.resolvedNames loop = ["repo", "loop"] := by decide
  have hlocate : workspace.locate false { root := "/", parts := ["repo", "loop"] } =
    .error .linkLoop := locate_loop
  rw [Workspace.resolve, if_neg (by decide)]
  dsimp only
  rw [hnames, hlocate]

theorem isFile_loop : workspace.isFile loop = false := by
  rw [Workspace.isFile, Workspace.entry, locate_loop]
  rfl

theorem discover_eq : workspace.discover repo repo Pair.options.discovery =
      [] := by
  have hlists : Discovery.lists {} workspace repo loop (.link "loop") = false := by
    unfold Discovery.lists
    dsimp only
    rw [isFile_loop]
    rfl
  have hsorted : Discovery.byName [("loop", .link "loop")] = [("loop", .link "loop")] :=
    List.mergeSort_singleton _
  have hfiles : Discovery.filesIn {} workspace repo repo [("loop", .link "loop")] = [] := by
    refine List.filterMap_eq_nil_iff.mpr (List.forall_mem_singleton.mpr (if_neg ?_))
    change ¬ (_ && Discovery.lists {} workspace repo loop (.link "loop")) = true
    rw [hlists, Bool.and_false]
    decide
  rw [Workspace.discover, entry_repo]
  dsimp only
  rw [Discovery.walk, hsorted]
  change Discovery.filesIn {} workspace repo repo _ ++ Discovery.walk {} workspace repo [] = []
  rw [hfiles, Discovery.walk]
  rfl

def hit : Hit where
  score := .real 1
  details := some [("file_path", .str "/repo/loop"), ("change_frequency", .int 2)]

theorem assembledWith_eq :
    workspace.assembledWith repo repo Pair.options [hit] = .error .lostPath := by
  have hpath : Path.ofText "/repo/loop" = loop := by decide
  have hrelative : workspace.relative repo loop = .error .lostPath := by
    rw [Workspace.relative, resolve_loop]
  have hnamed : Assembly.fileNamed workspace repo {} (hit.detail? "file_path") =
      .error .lostPath := by
    have hvalue : (hit.detail? "file_path").bind Json.filledStr? = some "/repo/loop" := rfl
    unfold Assembly.fileNamed
    rw [hvalue]
    dsimp only
    rw [if_neg (by decide), hpath, if_pos (by decide), hrelative]
    rfl
  have hassemble : assemble workspace repo Pair.options [] = .ok {} := by
    have houtlined : Assembly.outlined workspace repo [] = .ok {} := rfl
    rw [assemble, houtlined]
    rfl
  have hedge : Assembly.reportedEdge? workspace repo Pair.options.filter {} hit = .ok none := rfl
  rw [Workspace.assembledWith, discover_eq, hassemble, ok_bind, List.foldlM_cons, Assembly.addHit,
    hedge, ok_bind, Assembly.addReported, ok_bind, Assembly.noteFrequency,
    Assembly.reportedFrequency?, hnamed]
  rfl

end SelfLink

end CodeAtlas
