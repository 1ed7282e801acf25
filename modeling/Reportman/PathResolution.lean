import Mathlib
import Reportman.FileSystem

/-!
# Path names

How the kernel finds the entry a path names: component by component from the root, through the
symbolic links on the way, at most forty of them. The daemon and its children run in `/`, so a
relative path starts there as well. Resolution keeps its answer as long as directories and links
stay where they are.
-/
namespace Reportman.FileSystem

/-- The path cut at its slashes. -/
def components : Path → List Name
  | [] => [[]]
  | b :: p =>
      if b = slash then [] :: components p
      else match components p with
        | n :: ns => (b :: n) :: ns
        | [] => [[b]]

theorem components_ne_nil (p : Path) : components p ≠ [] := by
  induction p with
  | nil => simp [components]
  | cons b p ih =>
    simp only [components]
    split_ifs
    · simp
    · split <;> simp

theorem components_append (p q : Path) :
    components (p ++ slash :: q) = components p ++ components q := by
  induction p with
  | nil => simp [components]
  | cons b p ih =>
    simp only [List.cons_append, components, ih]
    split_ifs
    · rfl
    · cases h : components p with
      | nil => exact absurd h (components_ne_nil p)
      | cons n ns => rfl

theorem components_of_no_slash {n : Name} (h : slash ∉ n) : components n = [n] := by
  induction n with
  | nil => rfl
  | cons b n ih =>
    simp only [List.mem_cons, not_or] at h
    simp [components, ih h.2, Ne.symm h.1]

theorem no_slash_of_mem_components {p : Path} {n : Name} (h : n ∈ components p) : slash ∉ n := by
  induction p generalizing n with
  | nil => simp [components] at h; simp [h]
  | cons b p ih =>
    simp only [components] at h
    split_ifs at h with hb
    · rcases List.mem_cons.mp h with rfl | h
      · simp
      · exact ih h
    · cases hc : components p with
      | nil => exact absurd hc (components_ne_nil p)
      | cons m ms =>
        rw [hc] at h ih
        rcases List.mem_cons.mp h with rfl | h
        · simp only [List.mem_cons, not_or]
          exact ⟨Ne.symm hb, ih (List.mem_cons_self ..)⟩
        · exact ih (List.mem_cons_of_mem _ h)

theorem components_replicate_slash (path : Path) (k : ℕ) :
    components (path ++ List.replicate k slash) = components path ++ List.replicate k [] := by
  induction k generalizing path with
  | zero => simp
  | succ k ih =>
    have h : path ++ List.replicate (k + 1) slash =
        (path ++ List.replicate k slash) ++ slash :: [] := by
      rw [List.replicate_succ', List.append_assoc]
    rw [h, components_append, ih, List.append_assoc, List.replicate_succ']
    rfl

/-- A path without the slashes at its end. -/
def stripSlashes (path : Path) : Path := path.rdropWhile (· = slash)

/-- Nothing but slashes is stripped. -/
theorem exists_stripSlashes (path : Path) : ∃ k, path = stripSlashes path ++ List.replicate k slash := by
  induction path using List.reverseRecOn with
  | nil => exact ⟨0, rfl⟩
  | append_singleton path b ih =>
    by_cases hb : b = slash
    · obtain ⟨k, hk⟩ := ih
      refine ⟨k + 1, ?_⟩
      rw [stripSlashes, List.rdropWhile_concat_pos _ _ _ (by simp [hb]), List.replicate_succ', ← List.append_assoc]
      rw [stripSlashes] at hk
      rw [← hk, hb]
    · refine ⟨0, ?_⟩
      rw [stripSlashes, List.rdropWhile_concat_neg _ _ _ (by simpa using hb)]
      simp

theorem stripSlashes_of_last {path : Path} (hne : path ≠ []) (h : path.getLast hne ≠ slash) :
    stripSlashes path = path :=
  List.rdropWhile_eq_self_iff.2 fun _ => by simpa using h

namespace FS

variable (fs : FS)

/-- Where the target of a link is looked up. -/
def linkStart (cur : Loc) (target : Path) : Loc := if target.head? = some slash then [] else cur

/-- One pass over the components; `onLink` continues behind a symbolic link. The last component
may name nothing yet, and then the place where it would stand is the answer. -/
def walkWith (onLink : Loc → List Name → Option Loc) : Loc → List Name → Option Loc
  | cur, [] => some cur
  | cur, n :: rest =>
      if n = [] ∨ n = dot then walkWith onLink cur rest
      else if n = dotDot then walkWith onLink cur.tail rest
      else match fs.node (n :: cur) with
        | some .dir => walkWith onLink (n :: cur) rest
        | some (.link target) => onLink (linkStart cur target) (components target ++ rest)
        | _ => if rest = [] then some (n :: cur) else none

/-- Resolution with a budget of links. -/
def walk : ℕ → Loc → List Name → Option Loc
  | 0 => walkWith fs fun _ _ => none
  | k + 1 => walkWith fs (walk k)

/-- Linux gives up (ELOOP) after forty links. -/
def maxLinks : ℕ := 40

/-- The location a path names, links followed; `none` when the path leads nowhere. -/
def resolve (path : Path) : Option Loc :=
  if path = [] then none else fs.walk maxLinks [] (components path)

/-- The directory entry itself, a link in last place not followed: what `remove`, `mkdir` and
`lstat` look at. -/
def resolveEntry (path : Path) : Option Loc :=
  match (components path).reverse with
  | [] => none
  | n :: above =>
      if Ordinary n then
        (fs.walk maxLinks [] above.reverse).bind fun d =>
          if fs.node d = some .dir then some (n :: d) else none
      else none

section Unfolding

variable {fs} {k : ℕ} {cur : Loc} {n : Name} {rest : List Name}

@[simp] theorem walk_nil : fs.walk k cur [] = some cur := by cases k <;> rfl

theorem walk_skip (h : n = [] ∨ n = dot) : fs.walk k cur (n :: rest) = fs.walk k cur rest := by
  cases k <;> simp only [walk, walkWith, if_pos h]

theorem walk_up (h : n = dotDot) : fs.walk k cur (n :: rest) = fs.walk k cur.tail rest := by
  subst h
  cases k <;> simp [walk, walkWith, dotDot, dot]

theorem walk_dir (hn : Ordinary n) (h : fs.node (n :: cur) = some .dir) :
    fs.walk k cur (n :: rest) = fs.walk k (n :: cur) rest := by
  obtain ⟨h1, h2, h3⟩ := hn
  cases k <;> simp only [walk, walkWith, h, h1, h2, h3, or_self, ↓reduceIte]

theorem walk_link {target : Path} (hn : Ordinary n)
    (h : fs.node (n :: cur) = some (.link target)) :
    fs.walk (k + 1) cur (n :: rest) =
      fs.walk k (linkStart cur target) (components target ++ rest) := by
  obtain ⟨h1, h2, h3⟩ := hn
  rw [walk]
  simp only [walkWith, h, h1, h2, h3, or_self, ↓reduceIte]

theorem walk_link_zero {target : Path} (hn : Ordinary n)
    (h : fs.node (n :: cur) = some (.link target)) : fs.walk 0 cur (n :: rest) = none := by
  obtain ⟨h1, h2, h3⟩ := hn
  simp only [walk, walkWith, h, h1, h2, h3, or_self, ↓reduceIte]

theorem walk_leaf (hn : Ordinary n) (hd : fs.node (n :: cur) ≠ some .dir)
    (hl : ∀ target, fs.node (n :: cur) ≠ some (.link target)) :
    fs.walk k cur (n :: rest) = if rest = [] then some (n :: cur) else none := by
  obtain ⟨h1, h2, h3⟩ := hn
  have hw : ∀ onLink, walkWith fs onLink cur (n :: rest) =
      if rest = [] then some (n :: cur) else none := by
    intro onLink
    simp only [walkWith, h1, h2, h3, or_self, ↓reduceIte]
  cases k <;> exact hw _

end Unfolding

/-- The ways a walk can go on: the induction that every fact about resolution uses. -/
theorem walk_induction {P : ℕ → Loc → List Name → Prop}
    (nil : ∀ k cur, P k cur [])
    (skip : ∀ k cur n rest, n = [] ∨ n = dot → P k cur rest → P k cur (n :: rest))
    (up : ∀ k cur n rest, n = dotDot → P k cur.tail rest → P k cur (n :: rest))
    (dir : ∀ k cur n rest, Ordinary n → fs.node (n :: cur) = some .dir →
      P k (n :: cur) rest → P k cur (n :: rest))
    (linkZero : ∀ cur n rest target, Ordinary n → fs.node (n :: cur) = some (.link target) →
      P 0 cur (n :: rest))
    (link : ∀ k cur n rest target, Ordinary n → fs.node (n :: cur) = some (.link target) →
      P k (linkStart cur target) (components target ++ rest) → P (k + 1) cur (n :: rest))
    (leaf : ∀ k cur n rest, Ordinary n → fs.node (n :: cur) ≠ some .dir →
      (∀ target, fs.node (n :: cur) ≠ some (.link target)) → P k cur (n :: rest)) :
    ∀ k cur comps, P k cur comps := by
  intro k
  induction k with
  | zero =>
    intro cur comps
    induction comps generalizing cur with
    | nil => exact nil 0 cur
    | cons n rest ih =>
      by_cases hs : n = [] ∨ n = dot
      · exact skip _ _ _ _ hs (ih cur)
      by_cases hu : n = dotDot
      · exact up _ _ _ _ hu (ih cur.tail)
      have hn : Ordinary n := ⟨fun h => hs (.inl h), fun h => hs (.inr h), hu⟩
      rcases hnode : fs.node (n :: cur) with _ | _ | i | target
      · exact leaf _ _ _ _ hn (by simp [hnode]) (by simp [hnode])
      · exact dir _ _ _ _ hn hnode (ih _)
      · exact leaf _ _ _ _ hn (by simp [hnode]) (by simp [hnode])
      · exact linkZero _ _ _ _ hn hnode
  | succ k ihk =>
    intro cur comps
    induction comps generalizing cur with
    | nil => exact nil (k + 1) cur
    | cons n rest ih =>
      by_cases hs : n = [] ∨ n = dot
      · exact skip _ _ _ _ hs (ih cur)
      by_cases hu : n = dotDot
      · exact up _ _ _ _ hu (ih cur.tail)
      have hn : Ordinary n := ⟨fun h => hs (.inl h), fun h => hs (.inr h), hu⟩
      rcases hnode : fs.node (n :: cur) with _ | _ | i | target
      · exact leaf _ _ _ _ hn (by simp [hnode]) (by simp [hnode])
      · exact dir _ _ _ _ hn hnode (ih _)
      · exact leaf _ _ _ _ hn (by simp [hnode]) (by simp [hnode])
      · exact link _ _ _ _ _ hn hnode (ihk _ _)

theorem node_tail {cur : Loc} (h : fs.node cur = some .dir) : fs.node cur.tail = some .dir := by
  cases cur with
  | nil => exact h
  | cons n l =>
    have hne : fs.node (n :: l) ≠ none := by simp [h]
    exact fs.node_parent hne

theorem node_linkStart {cur : Loc} {target : Path} (h : fs.node cur = some .dir) :
    fs.node (linkStart cur target) = some .dir := by
  unfold linkStart
  split_ifs
  · exact fs.node_root
  · exact h

/-- One component more, when no link stands there: the walk must have come to a directory. -/
theorem walk_snoc (n : Name) (hn : Ordinary n) (k : ℕ) (cur : Loc) (comps : List Name)
    (hcur : fs.node cur = some .dir)
    (hl : ∀ d target, fs.walk k cur comps = some d → fs.node (n :: d) ≠ some (.link target)) :
    fs.walk k cur (comps ++ [n]) =
      (fs.walk k cur comps).bind fun d => if fs.node d = some .dir then some (n :: d) else none := by
  induction k, cur, comps using fs.walk_induction with
  | nil k cur =>
    rw [walk_nil] at hl ⊢
    simp only [List.nil_append, Option.bind_some, hcur, ↓reduceIte]
    by_cases hd : fs.node (n :: cur) = some .dir
    · rw [walk_dir hn hd, walk_nil]
    · rw [walk_leaf hn hd (fun t => hl cur t rfl), if_pos rfl]
  | skip k cur m rest hm ih =>
    rw [walk_skip hm] at hl ⊢
    rw [List.cons_append, walk_skip hm, ih hcur hl]
  | up k cur m rest hm ih =>
    rw [walk_up hm] at hl ⊢
    rw [List.cons_append, walk_up hm, ih (fs.node_tail hcur) hl]
  | dir k cur m rest hm hd ih =>
    rw [walk_dir hm hd] at hl ⊢
    rw [List.cons_append, walk_dir hm hd, ih hd hl]
  | linkZero cur m rest target hm ht =>
    rw [List.cons_append, walk_link_zero hm ht, walk_link_zero hm ht]; rfl
  | link k cur m rest target hm ht ih =>
    rw [walk_link hm ht] at hl ⊢
    rw [List.cons_append, walk_link hm ht, ← List.append_assoc, ih (fs.node_linkStart hcur) hl]
  | leaf k cur m rest hm hd ht =>
    rw [List.cons_append, walk_leaf hm hd ht, walk_leaf hm hd ht]
    by_cases hr : rest = []
    · simp [hr, hd]
    · simp [hr]

/-- Behind a directory a walk goes on from there, with what is left of its budget. -/
theorem walk_append_dir (k : ℕ) (cur : Loc) (comps more : List Name) {d : Loc}
    (h : fs.walk k cur comps = some d) (hd : fs.node d = some .dir) :
    ∃ k', fs.walk k cur (comps ++ more) = fs.walk k' d more := by
  induction k, cur, comps using fs.walk_induction with
  | nil k cur =>
    rw [walk_nil] at h
    cases h
    exact ⟨k, rfl⟩
  | skip k cur m rest hm ih =>
    rw [walk_skip hm] at h
    rw [List.cons_append, walk_skip hm]
    exact ih h
  | up k cur m rest hm ih =>
    rw [walk_up hm] at h
    rw [List.cons_append, walk_up hm]
    exact ih h
  | dir k cur m rest hm hdir ih =>
    rw [walk_dir hm hdir] at h
    rw [List.cons_append, walk_dir hm hdir]
    exact ih h
  | linkZero cur m rest target hm ht =>
    rw [walk_link_zero hm ht] at h
    cases h
  | link k cur m rest target hm ht ih =>
    rw [walk_link hm ht] at h
    rw [List.cons_append, walk_link hm ht, ← List.append_assoc]
    exact ih h
  | leaf k cur m rest hm hdir ht =>
    rw [walk_leaf hm hdir ht] at h
    split_ifs at h
    cases h
    exact absurd hd hdir

/-- What leads on leads through a directory. -/
theorem walk_prefix (k : ℕ) (cur : Loc) (comps more : List Name) (hcur : fs.node cur = some .dir)
    (hmore : more ≠ []) {l : Loc} (h : fs.walk k cur (comps ++ more) = some l) :
    ∃ d, fs.walk k cur comps = some d ∧ fs.node d = some .dir := by
  induction k, cur, comps using fs.walk_induction with
  | nil k cur => exact ⟨cur, walk_nil, hcur⟩
  | skip k cur m rest hm ih =>
    rw [List.cons_append, walk_skip hm] at h
    rw [walk_skip hm]
    exact ih hcur h
  | up k cur m rest hm ih =>
    rw [List.cons_append, walk_up hm] at h
    rw [walk_up hm]
    exact ih (fs.node_tail hcur) h
  | dir k cur m rest hm hd ih =>
    rw [List.cons_append, walk_dir hm hd] at h
    rw [walk_dir hm hd]
    exact ih hd h
  | linkZero cur m rest target hm ht =>
    rw [List.cons_append, walk_link_zero hm ht] at h
    cases h
  | link k cur m rest target hm ht ih =>
    rw [List.cons_append, walk_link hm ht, ← List.append_assoc] at h
    rw [walk_link hm ht]
    exact ih (fs.node_linkStart hcur) h
  | leaf k cur m rest hm hd ht =>
    rw [List.cons_append, walk_leaf hm hd ht, if_neg (by simp [hmore])] at h
    cases h

/-- What a walk ends at: a directory, or an entry that stands or could stand in one. -/
theorem walk_place (k : ℕ) (cur : Loc) (comps : List Name) (hcur : fs.node cur = some .dir)
    (hs : ∀ m ∈ comps, slash ∉ m) {l : Loc} (h : fs.walk k cur comps = some l) :
    fs.node l = some .dir ∨ ∃ n d, l = n :: d ∧ ValidName n ∧ fs.node d = some .dir := by
  induction k, cur, comps using fs.walk_induction with
  | nil k cur =>
    rw [walk_nil] at h
    cases h
    exact .inl hcur
  | skip k cur m rest hm ih =>
    rw [walk_skip hm] at h
    exact ih hcur (fun m hm => hs m (List.mem_cons_of_mem _ hm)) h
  | up k cur m rest hm ih =>
    rw [walk_up hm] at h
    exact ih (fs.node_tail hcur) (fun m hm => hs m (List.mem_cons_of_mem _ hm)) h
  | dir k cur m rest hm hd ih =>
    rw [walk_dir hm hd] at h
    exact ih hd (fun m hm => hs m (List.mem_cons_of_mem _ hm)) h
  | linkZero cur m rest target hm ht =>
    rw [walk_link_zero hm ht] at h
    cases h
  | link k cur m rest target hm ht ih =>
    rw [walk_link hm ht] at h
    refine ih (fs.node_linkStart hcur) ?_ h
    intro m' hm'
    rcases List.mem_append.mp hm' with hm' | hm'
    · exact no_slash_of_mem_components hm'
    · exact hs m' (List.mem_cons_of_mem _ hm')
  | leaf k cur m rest hm hd ht =>
    rw [walk_leaf hm hd ht] at h
    split_ifs at h with hr
    cases h
    exact .inr ⟨m, cur, rfl, ⟨hm, hs m (List.mem_cons_self ..)⟩, hcur⟩

/-- A walk goes on behind every link. -/
theorem walk_not_link (k : ℕ) (cur : Loc) (comps : List Name) (hcur : fs.node cur = some .dir) {l : Loc}
    (h : fs.walk k cur comps = some l) (t : Path) : fs.node l ≠ some (.link t) := by
  induction k, cur, comps using fs.walk_induction with
  | nil k cur =>
    rw [walk_nil] at h
    cases h
    simp [hcur]
  | skip k cur m rest hm ih =>
    rw [walk_skip hm] at h
    exact ih hcur h
  | up k cur m rest hm ih =>
    rw [walk_up hm] at h
    exact ih (fs.node_tail hcur) h
  | dir k cur m rest hm hd ih =>
    rw [walk_dir hm hd] at h
    exact ih hd h
  | linkZero cur m rest target hm ht =>
    rw [walk_link_zero hm ht] at h
    cases h
  | link k cur m rest target hm ht ih =>
    rw [walk_link hm ht] at h
    exact ih (fs.node_linkStart hcur) h
  | leaf k cur m rest hm hd ht =>
    rw [walk_leaf hm hd ht] at h
    split_ifs at h
    cases h
    exact ht t

/-- Directories and links stay where they are. -/
structure Persists (fs fs' : FS) : Prop where
  dirs : ∀ l, fs.node l = some .dir → fs'.node l = some .dir
  links : ∀ l t, fs.node l = some (.link t) → fs'.node l = some (.link t)

theorem Persists.refl : Persists fs fs := ⟨fun _ h => h, fun _ _ h => h⟩

theorem Persists.trans {fs fs' fs'' : FS} (h : Persists fs fs') (h' : Persists fs' fs'') :
    Persists fs fs'' :=
  ⟨fun l hl => h'.dirs l (h.dirs l hl), fun l t hl => h'.links l t (h.links l t hl)⟩

/-- A walk still ends where it ended, if that place itself has not become a directory or link. -/
theorem walk_stays {fs' : FS} (hp : Persists fs fs') (k : ℕ) (cur : Loc) (comps : List Name)
    {l : Loc} (h : fs.walk k cur comps = some l)
    (hl : fs.node l ≠ some .dir → (∀ t, fs.node l ≠ some (.link t)) →
      fs'.node l ≠ some .dir ∧ ∀ t, fs'.node l ≠ some (.link t)) :
    fs'.walk k cur comps = some l := by
  induction k, cur, comps using fs.walk_induction with
  | nil k cur => rw [walk_nil] at h ⊢; exact h
  | skip k cur m rest hm ih =>
    rw [walk_skip hm] at h ⊢
    exact ih h
  | up k cur m rest hm ih =>
    rw [walk_up hm] at h ⊢
    exact ih h
  | dir k cur m rest hm hd ih =>
    rw [walk_dir hm hd] at h
    rw [walk_dir hm (hp.dirs _ hd)]
    exact ih h
  | linkZero cur m rest target hm ht =>
    rw [walk_link_zero hm ht] at h
    cases h
  | link k cur m rest target hm ht ih =>
    rw [walk_link hm ht] at h
    rw [walk_link hm (hp.links _ _ ht)]
    exact ih h
  | leaf k cur m rest hm hd ht =>
    rw [walk_leaf hm hd ht] at h
    split_ifs at h with hr
    cases h
    obtain ⟨hd', ht'⟩ := hl hd ht
    rw [walk_leaf hm hd' ht', if_pos hr]

theorem walk_persists {fs' : FS} (hp : Persists fs fs') (k : ℕ) (cur : Loc) (comps : List Name)
    {l : Loc} (h : fs.walk k cur comps = some l) (hl : fs'.node l = fs.node l) :
    fs'.walk k cur comps = some l :=
  fs.walk_stays hp k cur comps h fun hd ht => ⟨hl ▸ hd, fun t => hl ▸ ht t⟩

theorem resolve_stays {fs' : FS} (hp : Persists fs fs') {path : Path} {l : Loc}
    (h : fs.resolve path = some l) (hl : fs.node l ≠ some .dir → (∀ t, fs.node l ≠ some (.link t)) →
      fs'.node l ≠ some .dir ∧ ∀ t, fs'.node l ≠ some (.link t)) : fs'.resolve path = some l := by
  unfold resolve at h ⊢
  split_ifs at h ⊢
  exact fs.walk_stays hp _ _ _ h hl

theorem resolve_persists {fs' : FS} (hp : Persists fs fs') {path : Path} {l : Loc}
    (h : fs.resolve path = some l) (hl : fs'.node l = fs.node l) : fs'.resolve path = some l := by
  unfold resolve at h ⊢
  split_ifs at h ⊢
  exact fs.walk_persists hp _ _ _ h hl

theorem resolveEntry_persists {fs' : FS} (hp : Persists fs fs') {path : Path} {l : Loc}
    (h : fs.resolveEntry path = some l) : fs'.resolveEntry path = some l := by
  unfold resolveEntry at h ⊢
  split at h
  · cases h
  · split_ifs at h ⊢
    obtain ⟨d, hd, hl⟩ := Option.bind_eq_some_iff.mp h
    split_ifs at hl with hdir
    rw [fs.walk_persists hp _ _ _ hd (by rw [hdir, hp.dirs d hdir])]
    simp [hp.dirs d hdir, hl]

/-- A path that leads somewhere names no entry only where it has no last name. -/
theorem resolveEntry_none {path : Path} {l : Loc} (h : fs.resolve path = some l) (hnone : fs.resolveEntry path = none)
    (fs' : FS) : fs'.resolveEntry path = none := by
  unfold resolve at h
  unfold resolveEntry at hnone ⊢
  split_ifs at h
  rcases hrev : (components path).reverse with _ | ⟨n, above⟩
  · rfl
  rw [hrev] at hnone
  dsimp only at hnone ⊢
  have hcomps : components path = above.reverse ++ [n] := by
    rw [← List.reverse_reverse (components path), hrev, List.reverse_cons]
  rw [hcomps] at h
  obtain ⟨d, hd, hdir⟩ := fs.walk_prefix _ _ _ _ fs.node_root (List.cons_ne_nil n []) h
  split_ifs at hnone ⊢
  · simp [hd, hdir] at hnone
  · rfl

theorem resolve_place {path : Path} {l : Loc} (h : fs.resolve path = some l) :
    fs.node l = some .dir ∨ ∃ n d, l = n :: d ∧ ValidName n ∧ fs.node d = some .dir := by
  unfold resolve at h
  split_ifs at h
  exact fs.walk_place _ _ _ fs.node_root (fun _ hm => no_slash_of_mem_components hm) h

theorem resolve_not_link {path : Path} {l : Loc} (h : fs.resolve path = some l) (t : Path) :
    fs.node l ≠ some (.link t) := by
  unfold resolve at h
  split_ifs at h
  exact fs.walk_not_link _ _ _ fs.node_root h t

theorem resolve_prefix {path rest : Path} {l : Loc} (hpath : path ≠ [])
    (h : fs.resolve (path ++ slash :: rest) = some l) :
    ∃ d, fs.resolve path = some d ∧ fs.node d = some .dir := by
  unfold resolve at h ⊢
  rw [if_neg (by simp), components_append] at h
  rw [if_neg hpath]
  exact fs.walk_prefix _ _ _ _ fs.node_root (components_ne_nil rest) h

/-- A path that ends in no name of its own leads to a directory. -/
theorem resolve_not_ordinary {path : Path} {n : Name} {l : Loc} (hpath : path ≠ []) (hs : slash ∉ n)
    (hn : ¬ Ordinary n) (h : fs.resolve (path ++ slash :: n) = some l) : fs.node l = some .dir := by
  obtain ⟨d, hd, hdir⟩ := fs.resolve_prefix hpath h
  unfold resolve at h hd
  rw [if_neg (by simp), components_append, components_of_no_slash hs] at h
  rw [if_neg hpath] at hd
  obtain ⟨k', hk'⟩ := fs.walk_append_dir _ _ _ [n] hd hdir
  rw [hk'] at h
  by_cases hskip : n = [] ∨ n = dot
  · rw [walk_skip hskip, walk_nil] at h
    cases h
    exact hdir
  · have hup : n = dotDot := by
      by_contra hup
      exact hn ⟨fun h => hskip (.inl h), fun h => hskip (.inr h), hup⟩
    rw [walk_up hup, walk_nil] at h
    cases h
    exact fs.node_tail hdir

/-- A child of what `path` names. -/
def child (r : Option Loc) (n : Name) : Option Loc :=
  r.bind fun d => if fs.node d = some .dir then some (n :: d) else none

theorem resolve_join {path : Path} {n : Name} (hpath : path ≠ []) (hn : ValidName n)
    (hl : ∀ d t, fs.resolve path = some d → fs.node (n :: d) ≠ some (.link t)) :
    fs.resolve (path ++ slash :: n) = fs.child (fs.resolve path) n := by
  unfold resolve at hl ⊢
  rw [if_neg hpath] at hl ⊢
  rw [if_neg (by simp), components_append, components_of_no_slash hn.2]
  exact fs.walk_snoc n hn.1 _ _ _ fs.node_root hl

theorem resolveEntry_join {path : Path} {n : Name} (hpath : path ≠ []) (hn : ValidName n) :
    fs.resolveEntry (path ++ slash :: n) = fs.child (fs.resolve path) n := by
  unfold resolveEntry resolve child
  rw [if_neg hpath, components_append, components_of_no_slash hn.2]
  simp [hn.1]

/-- A larger budget of links gives the same answer. -/
theorem walk_succ (k : ℕ) (cur : Loc) (comps : List Name) {l : Loc}
    (h : fs.walk k cur comps = some l) : fs.walk (k + 1) cur comps = some l := by
  induction k, cur, comps using fs.walk_induction with
  | nil k cur => rw [walk_nil] at h ⊢; exact h
  | skip k cur m rest hm ih =>
    rw [walk_skip hm] at h ⊢
    exact ih h
  | up k cur m rest hm ih =>
    rw [walk_up hm] at h ⊢
    exact ih h
  | dir k cur m rest hm hd ih =>
    rw [walk_dir hm hd] at h ⊢
    exact ih h
  | linkZero cur m rest target hm ht =>
    rw [walk_link_zero hm ht] at h
    cases h
  | link k cur m rest target hm ht ih =>
    rw [walk_link hm ht] at h ⊢
    exact ih h
  | leaf k cur m rest hm hd ht => rwa [walk_leaf hm hd ht] at h ⊢

theorem walk_mono {k k' : ℕ} (hk : k ≤ k') {cur : Loc} {comps : List Name} {l : Loc}
    (h : fs.walk k cur comps = some l) : fs.walk k' cur comps = some l := by
  induction k', hk using Nat.le_induction with
  | base => exact h
  | succ k' _ ih => exact fs.walk_succ k' cur comps ih

theorem walk_unique {k k' : ℕ} {cur : Loc} {comps : List Name} {l l' : Loc}
    (h : fs.walk k cur comps = some l) (h' : fs.walk k' cur comps = some l') : l = l' := by
  rcases Nat.le_total k k' with hk | hk
  · rw [fs.walk_mono hk h] at h'
    exact Option.some.inj h'
  · rw [fs.walk_mono hk h'] at h
    exact (Option.some.inj h).symm

/-- The entry of a path that leads to `l`, which is no directory: `l` itself, or a link to it. -/
theorem entry_leads {path : Path} {l : Loc} {n : Name} {d : Loc}
    (h : fs.resolve path = some l) (hl : fs.node l ≠ some .dir)
    (he : fs.resolveEntry path = some (n :: d)) :
    fs.node (n :: d) ≠ some .dir ∧ ((∀ t, fs.node (n :: d) ≠ some (.link t)) → l = n :: d) ∧
      ∀ t, fs.node (n :: d) = some (.link t) →
        ∃ k, fs.walk k (linkStart d t) (components t) = some l := by
  unfold resolve at h
  split_ifs at h
  unfold resolveEntry at he
  rcases hrev : (components path).reverse with _ | ⟨m, above⟩
  · rw [hrev] at he; cases he
  rw [hrev] at he
  dsimp only at he
  split_ifs at he with hn
  obtain ⟨e, hwalk, hde⟩ := Option.bind_eq_some_iff.mp he
  split_ifs at hde with hdir
  cases hde
  have hcomps : components path = above.reverse ++ [n] := by
    rw [← List.reverse_reverse (components path), hrev, List.reverse_cons]
  rw [hcomps] at h
  obtain ⟨k, hk⟩ := fs.walk_append_dir _ _ above.reverse [n] hwalk hdir
  rw [hk] at h
  have hnotdir : fs.node (n :: d) ≠ some .dir := by
    intro hd
    rw [walk_dir hn hd, walk_nil] at h
    cases h
    exact hl hd
  refine ⟨hnotdir, fun hnl => ?_, fun t ht => ?_⟩
  · rw [walk_leaf hn hnotdir hnl, if_pos rfl] at h
    exact (Option.some.inj h).symm
  · cases k with
    | zero => rw [walk_link_zero hn ht] at h; cases h
    | succ k =>
      rw [walk_link hn ht, List.append_nil] at h
      exact ⟨k, h⟩

/-- Taking away the entry of a path that leads to the file `l` does not disturb a walk to another
place: no such walk passes the entry. -/
theorem walk_unlink {path : Path} {l : Loc} {n : Name} {d : Loc} {hbelow}
    (h : fs.resolve path = some l) (hl : fs.node l ≠ some .dir)
    (he : fs.resolveEntry path = some (n :: d)) (k : ℕ) (cur : Loc) (comps : List Name)
    (hcur : fs.node cur = some .dir) {l' : Loc} (hw : fs.walk k cur comps = some l') (hne : l' ≠ l) :
    (fs.unlink n d hbelow).walk k cur comps = some l' := by
  obtain ⟨hnotdir, hfile, hlink⟩ := fs.entry_leads h hl he
  have hnode : ∀ k, k ≠ n :: d → (fs.unlink n d hbelow).node k = fs.node k := by
    intro k hk
    rw [node_unlink, if_neg hk]
  induction k, cur, comps using fs.walk_induction with
  | nil k cur => rw [walk_nil] at hw ⊢; exact hw
  | skip k cur m rest hm ih =>
    rw [walk_skip hm] at hw ⊢
    exact ih hcur hw
  | up k cur m rest hm ih =>
    rw [walk_up hm] at hw ⊢
    exact ih (fs.node_tail hcur) hw
  | dir k cur m rest hm hd ih =>
    rw [walk_dir hm hd] at hw
    rw [walk_dir hm ((hnode _ fun hx => hnotdir (hx ▸ hd)).trans hd)]
    exact ih hd hw
  | linkZero cur m rest target hm ht =>
    rw [walk_link_zero hm ht] at hw
    cases hw
  | link k cur m rest target hm ht ih =>
    rw [walk_link hm ht] at hw
    by_cases hx : m :: cur = n :: d
    · -- behind the entry there is only `l`, and nothing further
      obtain ⟨rfl, rfl⟩ := List.cons.inj hx
      obtain ⟨k', hk'⟩ := hlink target ht
      by_cases hrest : rest = []
      · rw [hrest, List.append_nil] at hw
        exact absurd (fs.walk_unique hw hk') hne
      · obtain ⟨e, hwe, hdir⟩ := fs.walk_prefix _ _ _ _ (fs.node_linkStart hcur) hrest hw
        rw [fs.walk_unique hwe hk'] at hdir
        exact absurd hdir hl
    · rw [walk_link hm ((hnode _ hx).trans ht)]
      exact ih (fs.node_linkStart hcur) hw
  | leaf k cur m rest hm hd ht =>
    rw [walk_leaf hm hd ht] at hw
    split_ifs at hw with hr
    cases hw
    have hx : m :: cur ≠ n :: d := by
      intro hx
      exact hne (hx.trans (hfile (hx ▸ ht)).symm)
    rw [walk_leaf hm (by rwa [hnode _ hx]) (by rwa [hnode _ hx]), if_pos hr]

theorem resolve_unlink {path path' : Path} {l l' : Loc} {n : Name} {d : Loc} {hbelow}
    (h : fs.resolve path = some l) (hl : fs.node l ≠ some .dir)
    (he : fs.resolveEntry path = some (n :: d)) (h' : fs.resolve path' = some l') (hne : l' ≠ l) :
    (fs.unlink n d hbelow).resolve path' = some l' := by
  unfold resolve at h' ⊢
  split_ifs at h' ⊢
  exact fs.walk_unlink h hl he _ _ _ fs.node_root h' hne

end FS

end Reportman.FileSystem
