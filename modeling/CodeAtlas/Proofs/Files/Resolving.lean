import CodeAtlas.Proofs.Files.PlainFolder
import Mathlib.Algebra.GroupWithZero.Nat
import Mathlib.Algebra.Order.BigOperators.Group.List
import Mathlib.Algebra.Order.Group.Nat

/-!
# Paths that lead somewhere

Following a path gives up after too many links; resolving it is patient and remembers the links that
it met. No link is met while it is being followed, since then following it would never end.

* **`Leads.arrives`**: resolving arrives where the parts lead, and in time.
* **`Workspace.resolve_of_locate`**: a path that leads somewhere resolves to where it leads.
-/

namespace CodeAtlas

/-! ## Where parts lead -/

/-- Where the target of a link starts, if the link is in the folder at `here`. -/
def linkStart (target : String) (here : List String) : List String :=
  if Text.startsWith target "/" then [] else here

def Entry.IsPlain (e : Entry) : Prop := ∀ target, e ≠ .link target

/-- The parts lead from `here` to `there` over that many links, nested ones counted. -/
inductive Leads (tree : Entry) : List String → List String → List String → Nat → Prop
  | done (here : List String) : Leads tree here [] here 0
  | stay {here rest there : List String} {part : String} {n : Nat} (hpart : part = "" ∨ part = ".")
      (hrest : Leads tree here rest there n) : Leads tree here (part :: rest) there n
  | up {here rest there : List String} {n : Nat}
      (hrest : Leads tree here.dropLast rest there n) : Leads tree here (".." :: rest) there n
  | down {here rest there : List String} {part : String} {n : Nat} {e : Entry}
      (hpart : part ∉ ["", ".", ".."]) (hsize : part.utf8ByteSize ≤ nameLimit)
      (he : tree.below? (here ++ [part]) = some e) (hplain : e.IsPlain)
      (hrest : Leads tree (here ++ [part]) rest there n) : Leads tree here (part :: rest) there n
  | link {here mid rest there : List String} {part target : String} {m n : Nat}
      (hpart : part ∉ ["", ".", ".."]) (he : tree.below? (here ++ [part]) = some (.link target))
      (htarget : Leads tree (linkStart target here) (linkParts target) mid m)
      (hrest : Leads tree mid rest there n) : Leads tree here (part :: rest) there (1 + m + n)

namespace Leads

variable {tree : Entry} {here there there' parts : List String} {n n' : Nat}

theorem unique (h : Leads tree here parts there n) (h' : Leads tree here parts there' n') :
    there = there' ∧ n = n' := by
  induction h generalizing there' n' with
  | done => cases h' with | done => exact ⟨rfl, rfl⟩
  | stay hpart _ ih =>
    cases h' with
    | stay _ h' => exact ih h'
    | up => simp at hpart
    | down hpart' => simp_all
    | link hpart' => simp_all
  | up _ ih =>
    cases h' with
    | stay hpart' => simp at hpart'
    | up h' => exact ih h'
    | down hpart' => simp at hpart'
    | link hpart' => simp at hpart'
  | down hpart _ he hplain _ ih =>
    cases h' with
    | stay hpart' => simp_all
    | up => simp at hpart
    | down _ _ _ _ h' => exact ih h'
    | link _ he' => exact absurd (Option.some.inj (he.symm.trans he')) (hplain _)
  | link hpart he _ _ ihtarget ihrest =>
    cases h' with
    | stay hpart' => simp_all
    | up => simp at hpart
    | down _ _ he' hplain' => exact absurd (Option.some.inj (he'.symm.trans he)) (hplain' _)
    | link _ he' htarget' hrest' =>
      obtain rfl := Entry.link.inj (Option.some.inj (he.symm.trans he'))
      obtain ⟨rfl, rfl⟩ := ihtarget htarget'
      obtain ⟨rfl, rfl⟩ := ihrest hrest'
      exact ⟨rfl, rfl⟩

end Leads

section Follow

variable {tree : Entry} {links : Nat} {here rest : List String} {part target : String}

theorem follow_stay (hpart : part = "" ∨ part = ".") :
    follow tree false links here (part :: rest) = follow tree false links here rest := by
  rw [follow, if_pos hpart]

theorem follow_up :
    follow tree false links here (".." :: rest) = follow tree false links here.dropLast rest := by
  rw [follow, if_neg (by decide), if_pos rfl]

theorem follow_long (hpart : part ∉ ["", ".", ".."]) (hsize : nameLimit < part.utf8ByteSize) :
    follow tree false links here (part :: rest) = .error .nameTooLong := by
  obtain ⟨hstay, hup⟩ := not_stay_of_notMem hpart
  rw [follow, if_neg hstay, if_neg hup, if_neg (by simp), if_pos hsize]

theorem follow_link (hpart : part ∉ ["", ".", ".."])
    (hsize : part.utf8ByteSize ≤ nameLimit)
    (h : tree.below? (here ++ [part]) = some (.link target)) :
    follow tree false (links + 1) here (part :: rest) =
      follow tree false links (linkStart target here) (linkParts target ++ rest) := by
  obtain ⟨hstay, hup⟩ := not_stay_of_notMem hpart
  rw [follow, if_neg hstay, if_neg hup, if_neg (by simp), if_neg (Nat.not_lt.mpr hsize), h]
  rfl

theorem follow_noLinks (hpart : part ∉ ["", ".", ".."])
    (hsize : part.utf8ByteSize ≤ nameLimit)
    (h : tree.below? (here ++ [part]) = some (.link target)) :
    follow tree false 0 here (part :: rest) = .error .linkLoop := by
  obtain ⟨hstay, hup⟩ := not_stay_of_notMem hpart
  rw [follow, if_neg hstay, if_neg hup, if_neg (by simp), if_neg (Nat.not_lt.mpr hsize), h]

end Follow

/-- The way goes on by the part, which is an entry of the folder `here`. -/
def GoesBy (tree : Entry) (links : Nat) (here : List String) (part : String)
    (rest there : List String) : Prop :=
  (∃ entries, tree.below? (here ++ [part]) = some (.folder entries) ∧
    follow tree false links (here ++ [part]) rest = .ok there) ∨
  (∃ f, tree.below? (here ++ [part]) = some (.file f) ∧ rest = [] ∧ there = here ++ [part]) ∨
  ∃ target fewer, tree.below? (here ++ [part]) = some (.link target) ∧ links = fewer + 1 ∧
    follow tree false fewer (linkStart target here) (linkParts target ++ rest) = .ok there

theorem follow_cons_eq_ok {tree : Entry} {links : Nat} {here rest there : List String}
    {part : String} (h : follow tree false links here (part :: rest) = .ok there) :
    ((part = "" ∨ part = ".") ∧ follow tree false links here rest = .ok there) ∨
    (part = ".." ∧ follow tree false links here.dropLast rest = .ok there) ∨
    (part ∉ ["", ".", ".."] ∧ part.utf8ByteSize ≤ nameLimit ∧
      GoesBy tree links here part rest there) := by
  rw [follow] at h
  by_cases hstay : part = "" ∨ part = "."
  · rw [if_pos hstay] at h
    exact Or.inl ⟨hstay, h⟩
  rw [if_neg hstay] at h
  by_cases hup : part = ".."
  · rw [if_pos hup] at h
    exact Or.inr (Or.inl ⟨hup, h⟩)
  have hpart : part ∉ ["", ".", ".."] := by simp_all
  rw [if_neg hup, if_neg (by simp)] at h
  by_cases hlong : nameLimit < part.utf8ByteSize
  · rw [if_pos hlong] at h
    cases h
  rw [if_neg hlong] at h
  refine Or.inr (Or.inr ⟨hpart, Nat.le_of_not_lt hlong, ?_⟩)
  unfold GoesBy
  cases hbelow : tree.below? (here ++ [part]) with
  | none =>
    rw [hbelow] at h
    simp at h
  | some e =>
    rw [hbelow] at h
    cases e with
    | folder entries => exact Or.inl ⟨entries, rfl, h⟩
    | file f =>
      dsimp only at h
      split_ifs at h with hempty
      exact Or.inr (Or.inl ⟨f, rfl, List.isEmpty_iff.mp hempty, (Except.ok.inj h).symm⟩)
    | link target =>
      cases links with
      | zero => cases h
      | succ fewer => exact Or.inr (Or.inr ⟨target, fewer, rfl, rfl, h⟩)

def GoesOn (tree : Entry) (here : List String) : Prop :=
  ∀ front, front <+: here → ∀ f, tree.below? front ≠ some (.file f)

section GoesOn

variable {tree : Entry} {here : List String}

theorem GoesOn.of_isPrefix {front : List String} (h : GoesOn tree here) (hfront : front <+: here) :
    GoesOn tree front := fun _ hshorter => h _ (hshorter.trans hfront)

theorem GoesOn.linkStart (h : GoesOn tree here) (target : String) :
    GoesOn tree (linkStart target here) := by
  unfold CodeAtlas.linkStart
  split_ifs
  · exact h.of_isPrefix List.nil_prefix
  · exact h

theorem GoesOn.child {part : String} {entries : List (String × Entry)} (h : GoesOn tree here)
    (he : tree.below? (here ++ [part]) = some (.folder entries)) :
    GoesOn tree (here ++ [part]) := by
  intro front hfront f hf
  rcases List.prefix_concat_iff.mp hfront with rfl | hfront
  · rw [he] at hf
    cases hf
  · exact h front hfront f hf

end GoesOn

/-- Followed parts lead to where they were followed to, and the rest goes on from there. -/
theorem exists_leads_of_follow {tree : Entry} {links : Nat} {here parts rest there : List String}
    (h : follow tree false links here (parts ++ rest) = .ok there) :
    ∃ mid n, n ≤ links ∧ Leads tree here parts mid n ∧
      follow tree false (links - n) mid rest = .ok there ∧
      (rest ≠ [] → GoesOn tree here → GoesOn tree mid) := by
  -- behind a link there are fewer links left, and else fewer parts
  induction links using Nat.strongRecOn generalizing here parts rest with
  | ind links ihlinks =>
    induction parts generalizing here with
    | nil => exact ⟨here, 0, Nat.zero_le _, .done here, h, fun _ hon => hon⟩
    | cons part parts ih =>
      rcases follow_cons_eq_ok h with ⟨hstay, hrest⟩ | ⟨rfl, hrest⟩ | ⟨hpart, hsize, hbelow⟩
      · obtain ⟨mid, n, hn, hleads, hfollow, hmid⟩ := ih hrest
        exact ⟨mid, n, hn, .stay hstay hleads, hfollow, hmid⟩
      · obtain ⟨mid, n, hn, hleads, hfollow, hmid⟩ := ih hrest
        exact ⟨mid, n, hn, .up hleads, hfollow, fun hne hon =>
          hmid hne (hon.of_isPrefix (List.dropLast_prefix here))⟩
      · rcases hbelow with
          ⟨entries, he, hrest⟩ | ⟨f, he, hrest, rfl⟩ | ⟨target, fewer, he, rfl, hrest⟩
        · obtain ⟨mid, n, hn, hleads, hfollow, hmid⟩ := ih hrest
          exact ⟨mid, n, hn, .down hpart hsize he (fun _ => nofun) hleads, hfollow,
            fun hne hon => hmid hne (hon.child he)⟩
        · obtain ⟨rfl, rfl⟩ := List.append_eq_nil_iff.mp hrest
          exact ⟨here ++ [part], 0, Nat.zero_le _,
            .down hpart hsize he (fun _ => nofun) (.done _), by rw [follow],
            fun hne => absurd rfl hne⟩
        · obtain ⟨mid₁, m, hm, htarget, hrest, hmid₁⟩ := ihlinks fewer (Nat.lt_succ_self _) hrest
          obtain ⟨mid, n, hn, hleads, hfollow, hmid⟩ := ihlinks (fewer - m) (by omega) hrest
          refine ⟨mid, 1 + m + n, by omega, .link hpart he htarget hleads, ?_, fun hne hon => ?_⟩
          · rw [show fewer + 1 - (1 + m + n) = fewer - m - n by omega]
            exact hfollow
          · exact hmid hne (hmid₁ (List.append_ne_nil_of_right_ne_nil parts hne)
              (hon.linkStart target))

/-! ## The links of a tree -/

mutual

/-- The links in a tree at `here`, with their names from the top and their targets. -/
def Entry.links (here : List String) : Entry → List (List String × String)
  | .file _ => []
  | .link target => [(here, target)]
  | .folder entries => Entry.linksOf here entries

def Entry.linksOf (here : List String) : List (String × Entry) → List (List String × String)
  | [] => []
  | (name, e) :: rest => e.links (here ++ [name]) ++ Entry.linksOf here rest

end

def stepsOf (link : List String × String) : Nat := 1 + (linkParts link.2).length

mutual

theorem Entry.sum_links (here : List String) (e : Entry) :
    ((e.links here).map stepsOf).sum = e.linkSteps := by
  match e with
  | .file _ => rfl
  | .link target => rfl
  | .folder entries => exact Entry.sum_linksOf here entries

theorem Entry.sum_linksOf (here : List String) (entries : List (String × Entry)) :
    ((Entry.linksOf here entries).map stepsOf).sum = Entry.linkStepsOf entries := by
  match entries with
  | [] => rfl
  | (name, e) :: rest =>
    rw [Entry.linksOf, Entry.linkStepsOf, List.map_append, List.sum_append, Entry.sum_links,
      Entry.sum_linksOf]

end

theorem Entry.links_subset {here : List String} {entries : List (String × Entry)} {name : String}
    {e : Entry} (h : (name, e) ∈ entries) :
    e.links (here ++ [name]) ⊆ Entry.linksOf here entries := by
  induction entries with
  | nil => exact absurd h List.not_mem_nil
  | cons x entries ih =>
    rw [Entry.linksOf]
    rcases List.mem_cons.mp h with rfl | h
    · exact List.subset_append_left _ _
    · exact List.subset_append_of_subset_right _ (ih h)

theorem Entry.mem_links {tree : Entry} {here names : List String} {target : String}
    (h : tree.below? names = some (.link target)) : (here ++ names, target) ∈ tree.links here := by
  induction names generalizing tree here with
  | nil =>
    obtain rfl := Option.some.inj h
    rw [List.append_nil]
    exact List.mem_singleton.mpr rfl
  | cons name names ih =>
    cases tree with
    | file f => cases h
    | link t => cases h
    | folder entries =>
      rw [Entry.below?] at h
      obtain ⟨e, he, h⟩ := Option.bind_eq_some_iff.mp h
      obtain ⟨x, hx, rfl⟩ := Option.map_eq_some_iff.mp he
      have hname : x.1 = name := by simpa using List.find?_some hx
      have hmem : (here ++ [name] ++ names, target) ∈ x.2.links (here ++ [name]) := ih h
      rw [List.append_assoc] at hmem
      exact links_subset (hname ▸ List.mem_of_find?_eq_some hx) hmem

/-! ## Resolving step by step -/

namespace Resolution

variable {tree : Entry} {here : List String} {part target : String} {rest : List ResolutionStep}
  {met : Table (List String) (Option (List String))}

theorem run_stay (hpart : part = "" ∨ part = ".") (fuel : Nat) :
    run tree (fuel + 1) ⟨here, .part part :: rest, met⟩ = run tree fuel ⟨here, rest, met⟩ := by
  change run tree fuel (take tree ⟨here, .part part :: rest, met⟩ part rest) = _
  rw [take, if_pos hpart]

theorem run_up (fuel : Nat) :
    run tree (fuel + 1) ⟨here, .part ".." :: rest, met⟩ =
      run tree fuel ⟨here.dropLast, rest, met⟩ := by
  change run tree fuel (take tree ⟨here, .part ".." :: rest, met⟩ ".." rest) = _
  rw [take, if_neg (by decide), if_pos rfl]

theorem run_known {path : List String} (hpart : part ∉ ["", ".", ".."])
    (hlink : tree.below? (here ++ [part]) = some (.link target))
    (hmet : met.get? (here ++ [part]) = some (some path)) (fuel : Nat) :
    run tree (fuel + 1) ⟨here, .part part :: rest, met⟩ = run tree fuel ⟨path, rest, met⟩ := by
  change run tree fuel (take tree ⟨here, .part part :: rest, met⟩ part rest) = _
  obtain ⟨hstay, hup⟩ := not_stay_of_notMem hpart
  rw [take, if_neg hstay, if_neg hup]
  dsimp only
  rw [hlink]
  dsimp only
  rw [hmet]

theorem run_new (hpart : part ∉ ["", ".", ".."])
    (hlink : tree.below? (here ++ [part]) = some (.link target))
    (hmet : met.get? (here ++ [part]) = none) (fuel : Nat) :
    run tree (fuel + 1) ⟨here, .part part :: rest, met⟩ =
      run tree fuel ⟨linkStart target here,
        (linkParts target).map .part ++ .followed (here ++ [part]) :: rest,
        met.put (here ++ [part]) none⟩ := by
  change run tree fuel (take tree ⟨here, .part part :: rest, met⟩ part rest) = _
  obtain ⟨hstay, hup⟩ := not_stay_of_notMem hpart
  rw [take, if_neg hstay, if_neg hup]
  dsimp only
  rw [hlink]
  dsimp only
  rw [hmet]
  rfl

theorem run_followed (link : List String) (fuel : Nat) :
    run tree (fuel + 1) ⟨here, .followed link :: rest, met⟩ =
      run tree fuel ⟨here, rest, met.put link (some here)⟩ := rfl

end Resolution

def openSteps (tree : Entry) (met : Table (List String) (Option (List String))) : Nat :=
  (((tree.links []).filter fun link => (met.get? link.1).isNone).map stepsOf).sum

theorem openSteps_nil (tree : Entry) : openSteps tree [] = tree.linkSteps := by
  have hall : (tree.links []).filter (fun link => (Table.get? ([] : Table (List String)
      (Option (List String))) link.1).isNone) = tree.links [] :=
    List.filter_eq_self.mpr fun _ _ => rfl
  rw [openSteps, hall, Entry.sum_links]

section OpenSteps

variable {tree : Entry} {names : List String} {target : String}
  {met : Table (List String) (Option (List String))}

theorem sum_filter_le {α : Type} (xs : List α) (f : α → Nat) {p q : α → Bool}
    (hqp : ∀ x, q x = true → p x = true) :
    ((xs.filter q).map f).sum ≤ ((xs.filter p).map f).sum :=
  ((List.monotone_filter_right xs hqp).map f).sum_le_sum fun _ _ => Nat.zero_le _

theorem sum_filter_add_le {α : Type} {xs : List α} (f : α → Nat) {p q : α → Bool} {a : α}
    (hqp : ∀ x, q x = true → p x = true) (ha : a ∈ xs) (hp : p a = true) (hq : q a = false) :
    ((xs.filter q).map f).sum + f a ≤ ((xs.filter p).map f).sum := by
  obtain ⟨front, back, rfl⟩ := List.append_of_mem ha
  have hfront := sum_filter_le front f hqp
  have hback := sum_filter_le back f hqp
  simp only [List.filter_append, List.filter_cons, hp, hq, if_true, List.map_append,
    List.map_cons, List.sum_append, List.sum_cons, Bool.false_eq_true, if_false]
  omega

theorem openSteps_put_again (hmet : met.get? names ≠ none)
    (value : Option (List String)) : openSteps tree (met.put names value) = openSteps tree met := by
  unfold openSteps
  congr 3
  funext link
  rw [Table.get?_put]
  by_cases h : link.1 = names
  · rw [if_pos h, h, Option.isNone_some,
      Option.isNone_eq_false_iff.mpr (Option.ne_none_iff_isSome.mp hmet)]
  · rw [if_neg h]

theorem openSteps_put_new (hlink : tree.below? names = some (.link target))
    (hmet : met.get? names = none) (value : Option (List String)) :
    openSteps tree (met.put names value) + (1 + (linkParts target).length) ≤
      openSteps tree met := by
  refine sum_filter_add_le stepsOf (a := (names, target)) (fun link h => ?_)
    (Entry.mem_links hlink) (by simp [hmet]) (by simp [Table.get?_put])
  rw [Table.get?_put] at h
  by_cases hnames : link.1 = names
  · simp [hnames] at h
  · rwa [if_neg hnames] at h

theorem openSteps_put_le (value : Option (List String)) :
    openSteps tree (met.put names value) ≤ openSteps tree met := by
  refine sum_filter_le _ stepsOf fun link h => ?_
  rw [Table.get?_put] at h
  by_cases hnames : link.1 = names
  · simp [hnames] at h
  · rwa [if_neg hnames] at h

end OpenSteps

def Resolution.stepsLeft (tree : Entry) (r : Resolution) : Nat :=
  r.todo.length + openSteps tree r.met

theorem Resolution.stepsLeft_take (tree : Entry) (r : Resolution) (name : String)
    (rest : List ResolutionStep) :
    (r.take tree name rest).stepsLeft tree ≤ rest.length + openSteps tree r.met := by
  unfold take
  dsimp only
  split_ifs
  · exact Nat.le_refl _
  · exact Nat.le_refl _
  · split
    · rename_i target hlink
      split
      · exact Nat.le_refl _
      · simp only [stepsLeft, List.length_nil]
        omega
      · rename_i hmet
        have hnew := openSteps_put_new hlink hmet none
        simp only [stepsLeft, List.length_append, List.length_map, List.length_cons]
        omega
    · exact Nat.le_refl _

/-- **The fuel is enough**: more of it changes nothing. -/
theorem Resolution.run_of_stepsLeft_le {tree : Entry} {fuel : Nat} {r : Resolution}
    (h : r.stepsLeft tree ≤ fuel) (more : Nat) : run tree (fuel + more) r = run tree fuel r := by
  induction fuel generalizing r with
  | zero =>
    obtain ⟨here, todo, met⟩ := r
    obtain rfl : todo = [] := List.length_eq_zero_iff.mp (by simp only [stepsLeft] at h; omega)
    rw [run_done, run_done]
  | succ fuel ih =>
    obtain ⟨here, todo, met⟩ := r
    simp only [stepsLeft] at h
    rw [Nat.add_right_comm]
    cases todo with
    | nil => rw [run_done, run_done]
    | cons step rest =>
      rw [List.length_cons] at h
      cases step with
      | followed link =>
        refine ih ?_
        have hput : openSteps tree (met.put link (some here)) ≤ openSteps tree met :=
          openSteps_put_le (some here)
        simp only [stepsLeft]
        omega
      | part name =>
        refine ih ?_
        have htake := stepsLeft_take tree ⟨here, .part name :: rest, met⟩ name rest
        dsimp only at htake
        omega

/-! ## What is remembered -/

/-- Where the link at these names leads, and over how many links. -/
def LinkLeads (tree : Entry) (names there : List String) (n : Nat) : Prop :=
  ∃ target, tree.below? names = some (.link target) ∧
    Leads tree (linkStart target names.dropLast) (linkParts target) there n

def Known (tree : Entry) (met : Table (List String) (Option (List String))) : Prop :=
  ∀ names path, met.get? names = some (some path) → ∃ n, LinkLeads tree names path n

/-- The links that are being followed have at least `n` links behind them. -/
def Pending (tree : Entry) (met : Table (List String) (Option (List String))) (n : Nat) : Prop :=
  ∀ names, met.get? names = some none → ∃ there m, LinkLeads tree names there m ∧ n ≤ m

section Remembered

variable {tree : Entry} {names there : List String} {n m : Nat}
  {met met' : Table (List String) (Option (List String))}

theorem LinkLeads.unique {there' : List String} (h : LinkLeads tree names there n)
    (h' : LinkLeads tree names there' m) : there = there' ∧ n = m := by
  obtain ⟨target, hlink, hleads⟩ := h
  obtain ⟨target', hlink', hleads'⟩ := h'
  obtain rfl := Entry.link.inj (Option.some.inj (hlink.symm.trans hlink'))
  exact hleads.unique hleads'

theorem Pending.mono (h : Pending tree met n) (hle : m ≤ n)
    (hsame : ∀ x, met'.get? x = some none → met.get? x = some none) : Pending tree met' m := by
  intro x hx
  obtain ⟨there, k, hleads, hk⟩ := h x (hsame x hx)
  exact ⟨there, k, hleads, Nat.le_trans hle hk⟩

/-- A link is not met while it is being followed: it would have more links behind it than it has. -/
theorem Pending.get?_ne (h : Pending tree met n) (hleads : LinkLeads tree names there m)
    (hlt : m < n) : met.get? names ≠ some none := by
  intro hpending
  obtain ⟨_, k, hleads', hk⟩ := h names hpending
  have := (hleads.unique hleads').2
  omega

theorem Pending.put (h : Pending tree met n) (hleads : LinkLeads tree names there m)
    (hle : m ≤ n) : Pending tree (met.put names none) m := by
  intro x hx
  rw [Table.get?_put] at hx
  by_cases hnames : x = names
  · exact ⟨there, m, hnames ▸ hleads, Nat.le_refl _⟩
  · rw [if_neg hnames] at hx
    exact h.mono hle (fun _ h => h) x hx

theorem Known.put_none (h : Known tree met) : Known tree (met.put names none) := by
  intro x path hx
  rw [Table.get?_put] at hx
  split_ifs at hx with hnames
  · cases hx
  · exact h x path hx

theorem Known.put_some (h : Known tree met) (hleads : LinkLeads tree names there m) :
    Known tree (met.put names (some there)) := by
  intro x path hx
  rw [Table.get?_put] at hx
  split_ifs at hx with hnames
  · obtain rfl := Option.some.inj (Option.some.inj hx)
    exact ⟨m, hnames ▸ hleads⟩
  · exact h x path hx

end Remembered

/-! ## Resolving arrives -/

/-- After some steps, paid for by parts done and links met, only the rest is left. -/
def Arrives (tree : Entry) (here parts there : List String)
    (met : Table (List String) (Option (List String))) : Prop :=
  ∀ rest, ∃ met' steps,
    (∀ fuel, Resolution.run tree (fuel + steps) ⟨here, parts.map .part ++ rest, met⟩ =
      Resolution.run tree fuel ⟨there, rest, met'⟩) ∧
    steps + openSteps tree met' ≤ parts.length + openSteps tree met ∧
    Known tree met' ∧ ∀ x, met'.get? x = some none ↔ met.get? x = some none

section Arriving

variable {tree : Entry} {here parts there : List String} {n : Nat}
  {met : Table (List String) (Option (List String))}

/-- One step more, at which no link is met for the first time. -/
theorem Arrives.step {next : List String} {part : String} (h : Arrives tree next parts there met)
    (hstep : ∀ rest fuel, Resolution.run tree (fuel + 1) ⟨here, .part part :: rest, met⟩ =
      Resolution.run tree fuel ⟨next, rest, met⟩) :
    Arrives tree here (part :: parts) there met := by
  intro rest
  obtain ⟨met', steps, hrun, hsteps, hafter⟩ := h rest
  refine ⟨met', steps + 1, fun fuel => ?_, by simp only [List.length_cons]; omega, hafter⟩
  exact (hstep _ _).trans (hrun fuel)

/-- **Resolving arrives where the parts lead.** -/
theorem Leads.arrives (h : Leads tree here parts there n) (hknown : Known tree met)
    (hpending : Pending tree met n) :
    Arrives tree here parts there met := by
  induction h generalizing met with
  | done here => exact fun rest => ⟨met, 0, fun _ => rfl, by simp, hknown, fun _ => Iff.rfl⟩
  | stay hpart _ ih =>
    exact (ih hknown hpending).step fun _ => Resolution.run_stay hpart
  | up _ ih =>
    exact (ih hknown hpending).step fun _ => Resolution.run_up
  | down hpart _ he hplain _ ih =>
    refine (ih hknown hpending).step fun _ => Resolution.run_part hpart fun target htarget => ?_
    exact hplain target (Option.some.inj (he.symm.trans htarget))
  | @link here mid parts there part target m n hpart he htarget hrest ihtarget ihrest =>
    have hleads : LinkLeads tree (here ++ [part]) mid m :=
      ⟨target, he, List.dropLast_concat.symm ▸ htarget⟩
    cases hmet : met.get? (here ++ [part]) with
    | none =>
      -- the target first, then the end of the link is noted, then the other parts
      intro rest
      obtain ⟨met₁, steps₁, hrun₁, hsteps₁, hknown₁, hsame₁⟩ :=
        ihtarget hknown.put_none (hpending.put hleads (by omega))
          (.followed (here ++ [part]) :: (parts.map .part ++ rest))
      have hmet₁ : met₁.get? (here ++ [part]) = some none := by
        rw [hsame₁, Table.get?_put, if_pos rfl]
      have hsame₂ : ∀ x, (met₁.put (here ++ [part]) (some mid)).get? x = some none ↔
          met.get? x = some none := by
        intro x
        by_cases hx : x = here ++ [part]
        · simp [Table.get?_put, hx, hmet]
        · rw [Table.get?_put, if_neg hx, hsame₁, Table.get?_put, if_neg hx]
      obtain ⟨met₂, steps₂, hrun₂, hsteps₂, hknown₂, hsame⟩ :=
        ihrest (hknown₁.put_some hleads) (hpending.mono (by omega) fun x => (hsame₂ x).mp) rest
      refine ⟨met₂, steps₂ + 1 + steps₁ + 1, fun fuel => ?_, ?_, hknown₂,
        fun x => (hsame x).trans (hsame₂ x)⟩
      · rw [show fuel + (steps₂ + 1 + steps₁ + 1) = fuel + steps₂ + 1 + steps₁ + 1 by omega,
          List.map_cons, List.cons_append]
        rw [Resolution.run_new hpart he hmet, hrun₁, Resolution.run_followed, hrun₂]
      · have hnew := openSteps_put_new he hmet none
        rw [openSteps_put_again (by rw [hmet₁]; simp)] at hsteps₂
        simp only [List.length_cons]
        omega
    | some end? =>
      cases end? with
      | none => exact absurd hmet (hpending.get?_ne hleads (by omega))
      | some path =>
        obtain ⟨k, hpath⟩ := hknown _ path hmet
        obtain ⟨rfl, -⟩ := hleads.unique hpath
        have hafter := ihrest hknown (hpending.mono (by omega) fun _ h => h)
        exact hafter.step fun _ => Resolution.run_known hpart he hmet

end Arriving

/-! ## Names without links -/

theorem Entry.below?_append (tree : Entry) (names rest : List String) :
    tree.below? (names ++ rest) = (tree.below? names).bind (Entry.below? rest) := by
  induction names generalizing tree with
  | nil => rfl
  | cons name names ih =>
    cases tree with
    | file f => rfl
    | link target => rfl
    | folder entries =>
      rw [List.cons_append, below?, below?, Option.bind_assoc]
      exact congrArg _ (funext ih)

theorem Entry.exists_folder {tree e : Entry} {names rest : List String} {name : String}
    (h : tree.below? (names ++ name :: rest) = some e) :
    ∃ entries, tree.below? names = some (.folder entries) := by
  rw [below?_append] at h
  obtain ⟨above, habove, h⟩ := Option.bind_eq_some_iff.mp h
  cases above with
  | file f => cases h
  | link target => cases h
  | folder entries => exact ⟨entries, habove⟩

/-- The names lead over folders, without a link, to an entry that is none. -/
inductive Held (tree : Entry) : List String → Prop
  | top : Held tree []
  | child {here : List String} {part : String} {e : Entry} (hhere : Held tree here)
      (hpart : part ∉ ["", ".", ".."]) (hsize : part.utf8ByteSize ≤ nameLimit)
      (he : tree.below? (here ++ [part]) = some e) (hplain : e.IsPlain) :
      Held tree (here ++ [part])

namespace Held

variable {tree : Entry} {here there parts : List String} {n : Nat}

theorem dropLast (h : Held tree here) : Held tree here.dropLast := by
  cases h with
  | top => exact .top
  | child hhere => rwa [List.dropLast_concat]

theorem of_leads (h : Leads tree here parts there n) (hhere : Held tree here) :
    Held tree there := by
  induction h with
  | done => exact hhere
  | stay _ _ ih => exact ih hhere
  | up _ ih => exact ih hhere.dropLast
  | down hpart hsize he hplain _ ih => exact ih (.child hhere hpart hsize he hplain)
  | link _ _ _ _ ihtarget ihrest =>
    refine ihrest (ihtarget ?_)
    unfold linkStart
    split_ifs
    · exact .top
    · exact hhere

theorem follow_append (h : Held tree here) (links : Nat) {rest : List String}
    (hrest : rest = [] ∨ ∃ entries, tree.below? here = some (.folder entries)) :
    follow tree false links [] (here ++ rest) = follow tree false links here rest := by
  induction h generalizing rest with
  | top => rfl
  | @child here part e hhere hpart hsize he hplain ih =>
    rw [List.append_assoc, List.singleton_append, ih (Or.inr (Entry.exists_folder he))]
    rcases hrest with rfl | ⟨entries, hfolder⟩
    · cases e with
      | link target => exact absurd rfl (hplain target)
      | folder entries => exact follow_folder hpart hsize he []
      | file f =>
        rw [follow_file hpart hsize he, follow]
    · exact follow_folder hpart hsize hfolder rest

theorem follow_eq (h : Held tree here) (links : Nat) :
    follow tree false links [] here = .ok here := by
  have happend := h.follow_append links (Or.inl rfl)
  rwa [List.append_nil, follow] at happend

end Held

namespace Workspace

variable {w : Workspace} {p : Path} {names : List String}

theorem exists_leads_of_locate (h : w.locate false p = .ok names) :
    ∃ n, Leads w.tree (w.start p) p.parts names n := by
  unfold locate at h
  split_ifs at h
  rw [← List.append_nil p.parts] at h
  obtain ⟨mid, n, -, hleads, hend, -⟩ := exists_leads_of_follow h
  rw [follow] at hend
  obtain rfl := Except.ok.inj hend
  exact ⟨n, hleads⟩

/-- **A path that leads somewhere** has the names of where it leads. -/
theorem resolvedNames_of_locate (h : w.locate false p = .ok names) : w.resolvedNames p = names := by
  obtain ⟨n, hleads⟩ := exists_leads_of_locate h
  have hknown : Known w.tree [] := fun _ _ h => by cases h
  have hpending : Pending w.tree [] n := fun _ h => by cases h
  obtain ⟨met', steps, hrun, hsteps, -⟩ := hleads.arrives hknown hpending []
  rw [openSteps_nil] at hsteps
  rw [List.append_nil] at hrun
  have hfuel : p.parts.length + w.tree.linkSteps + 1 =
      (p.parts.length + w.tree.linkSteps + 1 - steps) + steps := by omega
  rw [resolvedNames, hfuel]
  exact (hrun _).trans (Resolution.run_done _)

theorem start_of_isAbsolute (h : p.isAbsolute = true) : w.start p = [] := by
  rw [start, if_pos h]

theorem held_of_locate (habsolute : p.isAbsolute = true) (h : w.locate false p = .ok names) :
    Held w.tree names := by
  obtain ⟨n, hleads⟩ := exists_leads_of_locate h
  rw [start_of_isAbsolute habsolute] at hleads
  exact .of_leads hleads .top

/-- **A path from the top that leads somewhere resolves to where it leads.** -/
theorem resolve_of_locate (habsolute : p.isAbsolute = true) (h : w.locate false p = .ok names) :
    w.resolve p = .ok { root := "/", parts := names } := by
  have hnull : ¬ p.hasNull = true := by
    intro hnull
    rw [locate, if_pos hnull] at h
    cases h
  -- the names are followed as they are, unless they are too long or cannot be names
  have hloop : w.locate false { root := "/", parts := names } ≠ .error .linkLoop := by
    intro herror
    unfold locate at herror
    split_ifs at herror
    · cases herror
    · cases herror
    · rw [start_of_isAbsolute rfl, (held_of_locate habsolute h).follow_eq] at herror
      cases herror
  rw [resolve, if_neg hnull, resolvedNames_of_locate h]
  dsimp only
  split
  · rename_i herror
    exact absurd herror hloop
  · rfl

end Workspace

end CodeAtlas
