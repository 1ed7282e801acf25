import Mathlib
import Reportman.Stdio

/-!
# Footprints

What one run may rely on and what it promises. A run works on a set of locations, its footprint;
it relies on nobody touching the entries there, and it promises to change nothing outside the part
of them it writes. Both are about names and contents; permissions do not enter. A promise on one
set of locations is somebody else's reliance on a disjoint one, as long as no file stands in both.
-/
namespace Reportman.FileSystem
open Resumable

/-- No file of `F` has another name in `G`. -/
def Sole (F G : Loc → Prop) (fs : FS) : Prop :=
  ∀ l l' i, F l → G l' → fs.node l = some (.file i) → fs.node l' = some (.file i) → l' = l

/-- No symbolic link stands in the footprint. -/
def LinkFree (F : Loc → Prop) (fs : FS) : Prop := ∀ l t, F l → fs.node l ≠ some (.link t)

/-- The entries of the footprint and their contents are what they were: what a run on the
footprint `F` relies on. -/
structure Keeps (F : Loc → Prop) (fs fs' : FS) : Prop where
  persists : FS.Persists fs fs'
  node : ∀ l, F l → fs'.node l = fs.node l
  data : ∀ l i, F l → fs.node l = some (.file i) → fs'.data i = fs.data i

/-- What a run that writes at `W` promises of each call. -/
structure Within (W : Loc → Prop) (fs fs' : FS) : Prop where
  persists : FS.Persists fs fs'
  node : ∀ l, ¬ W l → fs'.node l = fs.node l
  data : ∀ i, fs'.data i ≠ fs.data i → ∃ l, W l ∧ fs'.node l = some (.file i)
  sole : ∀ F G, Sole F G fs → Sole F G fs'

/-- No link stands on the way to anything in the tree at `l`. -/
theorem LinkFree.below {F : Loc → Prop} {fs : FS} (h : LinkFree F fs) {l : Loc}
    (hl : ∀ p, F (p ++ l)) (p q : List Name) (t : Path) :
    q ≠ [] → q <:+ p → fs.node (q ++ l) ≠ some (.link t) :=
  fun _ _ => h _ t (hl q)

theorem Sole.symm {F G : Loc → Prop} {fs : FS} (h : Sole F G fs) : Sole G F fs :=
  fun l l' i hl hl' hn hn' => (h l' l i hl' hl hn' hn).symm

theorem Sole.mono {F G F' G' : Loc → Prop} {fs : FS} (h : Sole F G fs) (hF : ∀ l, F' l → F l)
    (hG : ∀ l, G' l → G l) : Sole F' G' fs :=
  fun l l' i hl hl' => h l l' i (hF l hl) (hG l' hl')

theorem Keeps.refl (F : Loc → Prop) (fs : FS) : Keeps F fs fs :=
  ⟨FS.Persists.refl fs, fun _ _ => rfl, fun _ _ _ _ => rfl⟩

theorem Keeps.trans {F : Loc → Prop} {a b c : FS} (h : Keeps F a b) (h' : Keeps F b c) :
    Keeps F a c := by
  refine ⟨h.persists.trans h'.persists, fun l hl => (h'.node l hl).trans (h.node l hl), ?_⟩
  intro l i hl hi
  have hb : b.node l = some (.file i) := by rw [h.node l hl, hi]
  exact (h'.data l i hl hb).trans (h.data l i hl hi)

theorem Keeps.mono {F G : Loc → Prop} {a b : FS} (h : Keeps F a b) (hG : ∀ l, G l → F l) :
    Keeps G a b :=
  ⟨h.persists, fun l hl => h.node l (hG l hl), fun l i hl hi => h.data l i (hG l hl) hi⟩

theorem Keeps.entry {F : Loc → Prop} {a b : FS} (h : Keeps F a b) {l : Loc} (hl : F l) :
    b.entry l = a.entry l := by
  unfold FS.entry
  rw [h.node l hl]
  rcases hn : a.node l with _ | _ | i | t
  · rfl
  · rfl
  · simp [h.data l i hl hn]
  · rfl

theorem Keeps.linkFree {F : Loc → Prop} {a b : FS} (h : Keeps F a b) (hl : LinkFree F a) :
    LinkFree F b := by
  intro l t hF
  rw [h.node l hF]
  exact hl l t hF

theorem Keeps.sole {F D : Loc → Prop} {a b : FS} (h : Keeps F a b) (hD : ∀ l, D l → F l)
    (hs : Sole D F a) : Sole D F b := by
  intro l l' i hl hl' hn hn'
  rw [h.node l (hD l hl)] at hn
  rw [h.node l' hl'] at hn'
  exact hs l l' i hl hl' hn hn'

theorem Within.refl (W : Loc → Prop) (fs : FS) : Within W fs fs :=
  ⟨FS.Persists.refl fs, fun _ _ => rfl, fun _ h => absurd rfl h, fun _ _ h => h⟩

theorem Within.mono {W V : Loc → Prop} {a b : FS} (h : Within W a b) (hV : ∀ l, W l → V l) :
    Within V a b := by
  refine ⟨h.persists, fun l hl => h.node l (fun hw => hl (hV l hw)), ?_, h.sole⟩
  intro i hi
  obtain ⟨l, hw, hn⟩ := h.data i hi
  exact ⟨l, hV l hw, hn⟩

/-- A promise on one set of locations is a reliance on every disjoint footprint. -/
theorem Within.keeps {W F : Loc → Prop} {fs fs' : FS} (h : Within W fs fs')
    (hd : ∀ l, F l → ¬ W l) (hs : Sole F W fs) : Keeps F fs fs' := by
  refine ⟨h.persists, fun l hl => h.node l (hd l hl), ?_⟩
  intro l i hl hi
  by_contra hne
  obtain ⟨l', hw, hn⟩ := h.data i hne
  have hl' : fs'.node l = some (.file i) := by rw [h.node l (hd l hl), hi]
  have heq := h.sole F W hs l l' i hl hw hl' hn
  subst heq
  exact hd _ hl hw

/-- The terms on which a fault-free run works on `F` and writes at `W`. -/
def terms (F W : Loc → Prop) : Terms Sys Sys.Res Choice FS where
  exec := exec
  allowed := Choice.clean
  rely := Keeps F
  guarantee := fun _ _ => Within W
  rely_refl := Keeps.refl F
  rely_trans := Keeps.trans

@[simp] theorem terms_exec (F W : Loc → Prop) : (terms F W).exec = exec := rfl

section Steps

variable {fs : FS} {W : Loc → Prop}

/-- Writing into a file that stands at `l`. -/
theorem within_write {l : Loc} {i : ℕ} {content : Bytes} (hw : W l)
    (hl : fs.node l = some (.file i)) : Within W fs (fs.write i content) := by
  refine ⟨⟨fun _ h => h, fun _ _ h => h⟩, fun _ _ => rfl, ?_, fun _ _ h => h⟩
  intro j hj
  by_cases hij : j = i
  · exact ⟨l, hw, by rw [hij]; exact hl⟩
  · exact absurd (Function.update_of_ne hij ..) hj

theorem keeps_write {F : Loc → Prop} {i : ℕ} {content : Bytes}
    (h : ∀ l, F l → fs.node l ≠ some (.file i)) : Keeps F fs (fs.write i content) := by
  refine ⟨⟨fun _ h => h, fun _ _ h => h⟩, fun _ _ => rfl, ?_⟩
  intro l k hl hk
  exact Function.update_of_ne (by rintro rfl; exact h l hl hk) ..

/-- A new entry leaves every other one alone. -/
theorem keeps_addFile {n : Name} {l : Loc} {mode : ℕ} {hl hn hfree} :
    Keeps (· ≠ n :: l) fs (fs.addFile n l mode hl hn hfree) := by
  have hnode : ∀ k, (fs.addFile n l mode hl hn hfree).node k =
      if k = n :: l then some (.file fs.next) else fs.node k := fun k => fs.node_addFile
  refine ⟨⟨?_, ?_⟩, fun k hk => by rw [hnode, if_neg hk], ?_⟩
  · intro k hk
    rw [hnode, if_neg (by rintro rfl; rw [hfree] at hk; cases hk), hk]
  · intro k t hk
    rw [hnode, if_neg (by rintro rfl; rw [hfree] at hk; cases hk), hk]
  · intro k i _ hi
    exact Function.update_of_ne (fs.node_fresh hi).ne ..

theorem keeps_addDir {n : Name} {l : Loc} {mode : ℕ} {hl hn hfree} :
    Keeps (· ≠ n :: l) fs (fs.addDir n l mode hl hn hfree) := by
  have hnode : ∀ k, (fs.addDir n l mode hl hn hfree).node k =
      if k = n :: l then some .dir else fs.node k := fun k => fs.node_addDir
  refine ⟨⟨?_, ?_⟩, fun k hk => by rw [hnode, if_neg hk], fun _ _ _ _ => rfl⟩
  · intro k hk
    rw [hnode, if_neg (by rintro rfl; rw [hfree] at hk; cases hk), hk]
  · intro k t hk
    rw [hnode, if_neg (by rintro rfl; rw [hfree] at hk; cases hk), hk]

/-- Taking away a file. -/
theorem keeps_unlink {n : Name} {l : Loc} {hbelow} {i : ℕ} (hf : fs.node (n :: l) = some (.file i)) :
    Keeps (· ≠ n :: l) fs (fs.unlink n l hbelow) := by
  have hnode : ∀ k, (fs.unlink n l hbelow).node k = if k = n :: l then none else fs.node k :=
    fun k => fs.node_unlink
  refine ⟨⟨?_, ?_⟩, fun k hk => by rw [hnode, if_neg hk], fun _ _ _ _ => rfl⟩
  · intro k hk
    rw [hnode, if_neg (by rintro rfl; rw [hf] at hk; cases hk), hk]
  · intro k t hk
    rw [hnode, if_neg (by rintro rfl; rw [hf] at hk; cases hk), hk]

theorem within_addFile {n : Name} {l : Loc} {mode : ℕ} {hl hn hfree} (hw : W (n :: l)) :
    Within W fs (fs.addFile n l mode hl hn hfree) := by
  have hnode : ∀ k, (fs.addFile n l mode hl hn hfree).node k =
      if k = n :: l then some (.file fs.next) else fs.node k := fun k => fs.node_addFile
  refine ⟨keeps_addFile.persists, fun k hk => keeps_addFile.node k (by rintro rfl; exact hk hw), ?_, ?_⟩
  · intro i hi
    by_cases hi' : i = fs.next
    · exact ⟨n :: l, hw, by rw [hnode, if_pos rfl, hi']⟩
    · exact absurd (Function.update_of_ne hi' ..) hi
  · intro F G hs k k' i hF hG hk hk'
    rw [hnode] at hk hk'
    split_ifs at hk hk' with h1 h2 h2
    · rw [h1, h2]
    · cases hk
      exact absurd (fs.node_fresh hk') (lt_irrefl _)
    · cases hk'
      exact absurd (fs.node_fresh hk) (lt_irrefl _)
    · exact hs k k' i hF hG hk hk'

/-- An entry is replaced by what is no file, and no file gets a second place. -/
theorem sole_of_replaced {fs fs' : FS} {l : Loc} {x : Option Node}
    (hnode : ∀ k, fs'.node k = if k = l then x else fs.node k) (hx : ∀ i, x ≠ some (.file i)) :
    ∀ F G, Sole F G fs → Sole F G fs' := by
  intro F G hs k k' i hF hG hk hk'
  have hother : ∀ k, fs'.node k = some (.file i) → fs.node k = some (.file i) := by
    intro k hk
    rw [hnode] at hk
    split_ifs at hk
    · exact absurd hk (hx i)
    · exact hk
  exact hs k k' i hF hG (hother k hk) (hother k' hk')

theorem within_addDir {n : Name} {l : Loc} {mode : ℕ} {hl hn hfree} (hw : W (n :: l)) :
    Within W fs (fs.addDir n l mode hl hn hfree) := by
  have hnode : ∀ k, (fs.addDir n l mode hl hn hfree).node k =
      if k = n :: l then some .dir else fs.node k := fun k => fs.node_addDir
  refine ⟨keeps_addDir.persists, fun k hk => keeps_addDir.node k (by rintro rfl; exact hk hw),
    fun _ h => absurd rfl h, ?_⟩
  exact sole_of_replaced hnode (by simp)

theorem within_unlink {n : Name} {l : Loc} {hbelow} {i : ℕ} (hw : W (n :: l))
    (hf : fs.node (n :: l) = some (.file i)) : Within W fs (fs.unlink n l hbelow) := by
  have hnode : ∀ k, (fs.unlink n l hbelow).node k = if k = n :: l then none else fs.node k :=
    fun k => fs.node_unlink
  refine ⟨(keeps_unlink hf).persists,
    fun k hk => (keeps_unlink hf).node k (by rintro rfl; exact hk hw), fun _ h => absurd rfl h, ?_⟩
  exact sole_of_replaced hnode (by simp)

end Steps

end Reportman.FileSystem
