import Mathlib
import Reportman.MonitorOptions
import Reportman.Settings

/-!
# The buffers for the values of options

A value that an option takes goes through a buffer of 1024 bytes, and from there into longer ones. Nothing
compares it with the first buffer. The longer ones would be long enough for everything that has passed it.
-/
namespace Reportman.Copies
open Arguments MonitorOptions Settings

section Source

def communicationBufferSize : ℕ := 1024
def pathMax : ℕ := 4096

/-- A string that is put into a buffer. A character is a byte. -/
structure Copy where
  text : String
  size : ℕ
  deriving DecidableEq, Repr

/-- With the zero behind it. -/
def Copy.Fits (c : Copy) : Prop := c.text.length + 1 ≤ c.size

instance (c : Copy) : Decidable c.Fits := inferInstanceAs (Decidable (_ ≤ _))

/-- `strcpy` into `arg_string`. -/
def argString (input : String) : Copy := ⟨input, communicationBufferSize⟩

/-- What `snprintf` writes when it is told that there is room for `size` bytes. -/
def snprintf (size : ℕ) (text : String) : String := .ofList (text.toList.take (size - 1))

def removeLastItemPathCopies (path : String) : List Copy :=
  ⟨path, pathMax⟩ ::
    match removeLastItemPath path with
    | none => []
    | some (directory, item) => [⟨directory, pathMax⟩, ⟨item, pathMax⟩]

/-- What `realpath` writes is not among them, for it keeps to `PATH_MAX` itself. -/
def getPathCopies (fs : PathCalls) (inputPath : String) : List Copy :=
  if inputPath = "" then []
  else removeLastItemPathCopies inputPath ++
    match removeLastItemPath inputPath with
    | none => if fs.realpath inputPath = none then [] else [⟨inputPath, pathMax⟩]
    | some (directory, fileName) =>
        let outputPath := directory ++ "/" ++ fileName
        let written : Copy := ⟨snprintf (pathMax * 2) outputPath, pathMax⟩
        if fs.realpath directory = none then []
        else if ¬ hasPathParent fs outputPath then [written, written]
        else [written, written, written]

def daemonCopies (fs : PathCalls) : Item → List Copy
  | .value "-tt" input => [argString input, ⟨input, communicationBufferSize⟩]
  | .value "-bt" input => [argString input, ⟨input, communicationBufferSize⟩]
  | .value "-lf" input => argString input :: getPathCopies fs input
  | _ => []

def fmCopies : Item → List Copy
  | .value "-tt" input => [argString input]
  | .value "-bt" input => [argString input]
  | _ => []

/-- A directory gets a block of its own length. -/
def monitorCopies : Item → List Copy
  | .value "-lf" input => [argString input, ⟨input, pathMax⟩]
  | .value "-ls" input => [argString input, ⟨input, pathMax⟩]
  | .other arg => if argUnrecognised arg then [] else [⟨arg, arg.length + 1⟩]
  | _ => []

variable {σ : Type} (options : List (ArgOption σ)) (otherwise : String → σ → Except ArgExit σ)

/-- What the loop takes, up to where it makes an end of the program. -/
def taken : List String → σ → List Item
  | [], _ => []
  | arg :: rest, s =>
      match options.find? (·.named arg) with
      | none =>
          .other arg :: match otherwise arg s with
            | .error _ => []
            | .ok s => taken rest s
      | some ⟨short, _, .flag set⟩ => .flag short :: taken rest (set s)
      | some ⟨short, _, .value _ set⟩ =>
          match rest with
          | [] => []
          | input :: rest =>
              .value short input :: match set input s with
                | .error _ => []
                | .ok s => taken rest s

inductive Program
  | reportmand
  | reportmanFm
  | reportmanMon
  deriving DecidableEq, Repr

variable (fs : PathCalls) (clock : Clock)

def Program.taken (argv : List String) : Program → List Item
  | .reportmand => Copies.taken (daemonOptions fs) daemonOtherwise argv.tail execArgs
  | .reportmanFm => Copies.taken (fmOptions clock) fmOtherwise argv.tail fmArgs
  | .reportmanMon => Copies.taken monitorOptions monitorOtherwise argv.tail ⟨monitorArgs, []⟩

def Program.copied : Program → Item → List Copy
  | .reportmand => daemonCopies fs
  | .reportmanFm => fmCopies
  | .reportmanMon => monitorCopies

/-- Every string that is copied while the arguments are read, in this order. -/
def Program.copies (p : Program) (argv : List String) : List Copy :=
  (p.taken fs clock argv).flatMap (p.copied fs)

end Source

section Taken

variable {σ : Type} {options : List (ArgOption σ)} {otherwise : String → σ → Except ArgExit σ}

/-- If the program goes on with its arguments, it has taken them all. -/
theorem taken_of_ok {args : List String} {s s' : σ} (h : parseArgs options otherwise args s = .ok s') :
    taken options otherwise args s = items options args := by
  refine parseArgs_induction ?nil ?other ?flag ?value h
  case nil => rfl
  case other =>
    intro arg rest s s₁ hfind hstep ih
    simp [taken, items, hfind, hstep, ih]
  case flag =>
    intro arg rest s short long set hfind ih
    simp [taken, items, hfind, ih]
  case value =>
    intro arg input rest s s₁ short long name set hfind hstep ih
    simp [taken, items, hfind, hstep, ih]

end Taken

section Capacity

/-- The options that take a string. -/
def Program.stringOptions : Program → List String
  | .reportmand => ["-tt", "-bt", "-lf"]
  | .reportmanFm => ["-tt", "-bt"]
  | .reportmanMon => ["-lf", "-ls"]

/-- What these options are given. -/
def Program.strings (p : Program) (fs : PathCalls) (clock : Clock) (argv : List String) : List String :=
  p.stringOptions.flatMap fun shortName => values shortName (p.taken fs clock argv)

theorem removeLastItemPath_length {path directory item : String}
    (h : removeLastItemPath path = some (directory, item)) : directory.length + 1 + item.length = path.length := by
  have hslash : "/".length = 1 := rfl
  rw [← removeLastItemPath_append h, String.length_append, String.length_append, hslash]

theorem length_snprintf_le (size : ℕ) (text : String) : (snprintf size text).length ≤ text.length := by
  rw [snprintf, String.length_ofList, ← String.length_toList]
  exact List.length_take_le' (size - 1) text.toList

/-- The string comes from the path, and its buffer is a long one. -/
def Within (path : String) (c : Copy) : Prop := c.text.length ≤ path.length ∧ c.size = pathMax

theorem removeLastItemPathCopies_within (path : String) : ∀ c ∈ removeLastItemPathCopies path, Within path c := by
  unfold removeLastItemPathCopies
  cases hsplit : removeLastItemPath path with
  | none => simp [Within]
  | some parts =>
    obtain ⟨directory, item⟩ := parts
    have hlength := removeLastItemPath_length hsplit
    simp [Within]
    omega

/-- No copy of `__get_path` is longer than what it is given. -/
theorem getPathCopies_within (fs : PathCalls) (path : String) : ∀ c ∈ getPathCopies fs path, Within path c := by
  intro c hc
  unfold getPathCopies at hc
  by_cases hempty : path = ""
  · rw [if_pos hempty] at hc
    cases hc
  rw [if_neg hempty] at hc
  rcases List.mem_append.1 hc with hc | hc
  · exact removeLastItemPathCopies_within path c hc
  cases hsplit : removeLastItemPath path with
  | none =>
    simp only [hsplit] at hc
    split_ifs at hc
    · simp at hc
    · obtain rfl := List.mem_singleton.1 hc
      simp [Within]
  | some parts =>
    have hwritten := length_snprintf_le (pathMax * 2) (parts.1 ++ "/" ++ parts.2)
    rw [removeLastItemPath_append hsplit] at hwritten
    simp only [hsplit] at hc
    have hcopy : c = ⟨snprintf (pathMax * 2) (parts.1 ++ "/" ++ parts.2), pathMax⟩ := by
      split_ifs at hc <;> simp_all
    rw [hcopy, removeLastItemPath_append hsplit]
    exact ⟨hwritten, rfl⟩

/-- So a path that has passed the first buffer has room in the others. -/
theorem fits_of_within {path : String} {c : Copy} (hc : Within path c) (hshort : path.length ≤ 1023) : c.Fits := by
  obtain ⟨hlength, hsize⟩ := hc
  unfold Copy.Fits
  rw [hsize, pathMax]
  omega

theorem argString_fits_iff (input : String) : (argString input).Fits ↔ input.length ≤ 1023 := by
  simp only [Copy.Fits, argString, communicationBufferSize]
  omega

/-- An option with a string copies it into the first buffer, and then only what has room. -/
theorem Program.copied_string {p : Program} {short : String} (hshort : short ∈ p.stringOptions) (fs : PathCalls)
    (input : String) : ∃ rest, p.copied fs (.value short input) = argString input :: rest ∧
      (input.length ≤ 1023 → ∀ c ∈ rest, c.Fits) := by
  have hpath : input.length ≤ 1023 → Copy.Fits ⟨input, pathMax⟩ := fits_of_within ⟨le_rfl, rfl⟩
  have hheap : input.length ≤ 1023 → Copy.Fits ⟨input, communicationBufferSize⟩ := (argString_fits_iff input).2
  cases p with
  | reportmand =>
    rcases (by simpa [stringOptions] using hshort : short = "-tt" ∨ short = "-bt" ∨ short = "-lf") with
      rfl | rfl | rfl
    · exact ⟨_, rfl, by simpa using hheap⟩
    · exact ⟨_, rfl, by simpa using hheap⟩
    · exact ⟨_, rfl, fun hlength c hc => fits_of_within (getPathCopies_within fs input c hc) hlength⟩
  | reportmanFm =>
    rcases (by simpa [stringOptions] using hshort : short = "-tt" ∨ short = "-bt") with rfl | rfl
    · exact ⟨_, rfl, by simp⟩
    · exact ⟨_, rfl, by simp⟩
  | reportmanMon =>
    rcases (by simpa [stringOptions] using hshort : short = "-lf" ∨ short = "-ls") with rfl | rfl
    · exact ⟨_, rfl, by simpa using hpath⟩
    · exact ⟨_, rfl, by simpa using hpath⟩

theorem Program.copied_other {p : Program} {short : String} (hshort : short ∉ p.stringOptions) (fs : PathCalls)
    (input : String) : p.copied fs (.value short input) = [] := by
  cases p with
  | reportmand =>
    simp only [stringOptions, List.mem_cons, List.not_mem_nil, or_false, not_or] at hshort
    simp only [copied]
    unfold daemonCopies
    split <;> simp_all
  | reportmanFm =>
    simp only [stringOptions, List.mem_cons, List.not_mem_nil, or_false, not_or] at hshort
    simp only [copied]
    unfold fmCopies
    split <;> simp_all
  | reportmanMon =>
    simp only [stringOptions, List.mem_cons, List.not_mem_nil, or_false, not_or] at hshort
    simp only [copied]
    unfold monitorCopies
    split <;> simp_all

/-- For each option with a string it is the first buffer that decides. -/
theorem Program.copied_fit_iff (p : Program) (fs : PathCalls) (item : Item) :
    (∀ c ∈ p.copied fs item, c.Fits) ↔
      ∀ shortName ∈ p.stringOptions, ∀ input, item.valueOf shortName = some input → input.length ≤ 1023 := by
  cases item with
  | flag short => cases p <;> simp [copied, daemonCopies, fmCopies, monitorCopies, Item.valueOf]
  | other arg =>
    cases p with
    | reportmand => simp [copied, daemonCopies, Item.valueOf]
    | reportmanFm => simp [copied, fmCopies, Item.valueOf]
    | reportmanMon =>
      simp only [copied, monitorCopies]
      split_ifs <;> simp [Copy.Fits, Item.valueOf]
  | value short input =>
    by_cases hshort : short ∈ p.stringOptions
    · obtain ⟨rest, hcopied, hrest⟩ := p.copied_string hshort fs input
      rw [hcopied, List.forall_mem_cons, argString_fits_iff]
      constructor
      · rintro ⟨hlength, -⟩ shortName - input' hvalue
        obtain ⟨-, rfl⟩ := (by simpa [Item.valueOf] using hvalue : short = shortName ∧ input = input')
        exact hlength
      · intro hall
        have hlength : input.length ≤ 1023 := hall short hshort input (by simp [Item.valueOf])
        exact ⟨hlength, hrest hlength⟩
    · rw [p.copied_other hshort]
      constructor
      · intro _ shortName hmem input' hvalue
        obtain ⟨rfl, -⟩ := (by simpa [Item.valueOf] using hvalue : short = shortName ∧ input = input')
        exact absurd hmem hshort
      · simp

/-- Everything fits if and only if no option is given a string that is longer than the first buffer. -/
theorem Program.copies_fit_iff (p : Program) (fs : PathCalls) (clock : Clock) (argv : List String) :
    (∀ c ∈ p.copies fs clock argv, c.Fits) ↔ ∀ input ∈ p.strings fs clock argv, input.length ≤ 1023 := by
  have hitems : (∀ c ∈ p.copies fs clock argv, c.Fits) ↔
      ∀ item ∈ p.taken fs clock argv, ∀ c ∈ p.copied fs item, c.Fits := by
    simp only [copies, List.mem_flatMap]
    exact ⟨fun h item hitem c hc => h c ⟨item, hitem, hc⟩, fun h c ⟨item, hitem, hc⟩ => h item hitem c hc⟩
  rw [hitems]
  simp only [copied_fit_iff, strings, List.mem_flatMap, values, List.mem_filterMap]
  constructor
  · rintro h input ⟨shortName, hmem, item, hitem, hvalue⟩
    exact h item hitem shortName hmem input hvalue
  · intro h item hitem shortName hmem input hvalue
    exact h input ⟨shortName, hmem, item, hitem, hvalue⟩

/-- A time that is nothing but zeros. -/
def zeros (n : ℕ) : String := .ofList (List.replicate n '0')

theorem length_zeros (n : ℕ) : (zeros n).length = n := by
  rw [zeros, String.length_ofList, List.length_replicate]

/-- The zero behind it is the byte too many. -/
theorem not_fit_zeros : ¬ ∀ fs clock,
    ∀ c ∈ Program.reportmand.copies fs clock ["reportmand", "--transfer-time", zeros 1024], c.Fits := by
  intro hall
  have hmem : ∀ fs clock input,
      argString input ∈ Program.reportmand.copies fs clock ["reportmand", "--transfer-time", input] :=
    fun fs clock input => List.mem_cons_self ..
  have hfits := hall ⟨fun _ => none, fun _ => 0, fun _ => 0⟩ ⟨0, fun _ _ _ => 0⟩ _ (hmem _ _ (zeros 1024))
  rw [argString_fits_iff, length_zeros] at hfits
  omega

end Capacity

end Reportman.Copies
