import Mathlib

/-!
# Format strings

What `printf` makes of a format, and where the bytes of a format come from. A program writes its formats
itself. If it passes on a text that it was given, a percent sign in this text becomes a conversion for which
there is no argument.
-/
namespace Reportman.FormatStrings

section Directives

/-- A byte has been written into the program, or comes from what the program was given. -/
inductive Origin
  | literal
  | data
  deriving DecidableEq, Repr

structure Mark where
  origin : Origin
  byte : UInt8
  deriving DecidableEq, Repr

abbrev Text := List Mark

def literal (text : List UInt8) : Text := text.map (Mark.mk .literal)

def data (text : List UInt8) : Text := text.map (Mark.mk .data)

def bytesOf (text : Text) : List UInt8 := text.map Mark.byte

def percent : UInt8 := 37

/-- Flags, width, precision and length, all of which stand before the letter. -/
def isModifier (b : UInt8) : Bool :=
  ("-+ #'I0123456789$*.hlqLjzZt".toList.map fun c => c.toNat.toUInt8).contains b

inductive Directive
  | ordinary (b : UInt8)
  | conversion (specification : Text)
  deriving DecidableEq, Repr

/-- A format, or what is left of it after the beginning of a conversion. -/
def scan : Option Text → Text → List Directive
  | none, [] => []
  | some specification, [] => [.conversion specification]
  | none, m :: rest => if m.byte = percent then scan (some [m]) rest else .ordinary m.byte :: scan none rest
  | some specification, m :: rest =>
      if isModifier m.byte then scan (some (specification ++ [m])) rest
      else .conversion (specification ++ [m]) :: scan none rest

/-- What is printed. The arguments are given as they look in print, and `unspecified` is what comes of a
conversion that has none. -/
def render (unspecified : Text → List UInt8) : List Directive → List (List UInt8) → List UInt8
  | [], _ => []
  | .ordinary b :: rest, args => b :: render unspecified rest args
  | .conversion specification :: rest, args =>
      if bytesOf specification = [percent, percent] then percent :: render unspecified rest args
      else
        match args with
        | [] => unspecified specification ++ render unspecified rest []
        | arg :: args => arg ++ render unspecified rest args

/-- A call that prints: the format and the arguments, and the text that they stand for. -/
structure Call where
  format : Text
  args : List (List UInt8)
  built : List UInt8

/-- No conversion begins in what the program was given, and what is printed is the text. -/
def Call.Verbatim (c : Call) : Prop :=
  (∀ specification, .conversion specification ∈ scan none c.format →
    ∀ m, specification.head? = some m → m.origin = .literal) ∧
    ∀ unspecified, render unspecified (scan none c.format) c.args = c.built

/-- A text is printed as if it were a format. -/
def Call.ofText (text : Text) : Call := ⟨text, [], bytesOf text⟩

variable {text : Text} {m : Mark}

theorem scan_ordinary (h : ∀ m ∈ text, m.byte ≠ percent) :
    scan none text = text.map fun m => .ordinary m.byte := by
  induction text with
  | nil => rfl
  | cons m rest ih =>
    have hm : m.byte ≠ percent := h m (List.mem_cons_self ..)
    rw [scan, if_neg hm, ih fun m hm => h m (List.mem_cons_of_mem _ hm), List.map_cons]

theorem render_ordinary (unspecified : Text → List UInt8) (args : List (List UInt8)) :
    render unspecified (text.map fun m => .ordinary m.byte) args = bytesOf text := by
  induction text with
  | nil => rfl
  | cons m rest ih => simp [render, ih, bytesOf]

/-- What has begun as a conversion ends as one. -/
theorem exists_conversion_of_begun (specification : Text) (rest : Text) :
    ∃ more, .conversion (specification ++ more) ∈ scan (some specification) rest := by
  induction rest generalizing specification with
  | nil => exact ⟨[], by simp [scan]⟩
  | cons m rest ih =>
    rw [scan]
    split_ifs with hmodifier
    · obtain ⟨more, hmore⟩ := ih (specification ++ [m])
      rw [List.append_assoc] at hmore
      exact ⟨[m] ++ more, hmore⟩
    · exact ⟨[m], List.mem_cons_self ..⟩

/-- The first percent sign begins a conversion. -/
theorem exists_conversion (h : ∃ m ∈ text, m.byte = percent) :
    ∃ m ∈ text, m.byte = percent ∧ ∃ more, .conversion (m :: more) ∈ scan none text := by
  induction text with
  | nil => simp at h
  | cons m rest ih =>
    rw [scan]
    split_ifs with hm
    · obtain ⟨more, hmore⟩ := exists_conversion_of_begun [m] rest
      exact ⟨m, List.mem_cons_self .., hm, more, hmore⟩
    · have hrest : ∃ m ∈ rest, m.byte = percent := by simpa [hm] using h
      obtain ⟨m', hmem, hbyte, more, hmore⟩ := ih hrest
      exact ⟨m', List.mem_cons_of_mem _ hmem, hbyte, more, List.mem_cons_of_mem _ hmore⟩

/-- A conversion is a piece of the format. -/
theorem mem_of_mem_conversion {begun : Option Text} {specification : Text}
    (h : .conversion specification ∈ scan begun text) (hm : m ∈ specification) :
    m ∈ begun.getD [] ∨ m ∈ text := by
  fun_induction scan begun text with
  | case1 => simp at h
  | case2 begun =>
    obtain rfl : specification = begun := by simpa using h
    exact .inl hm
  | case3 m' rest hpercent ih =>
    have := ih h
    simp at this
    simp [this]
  | case4 m' rest hpercent ih =>
    have := ih (by simpa using h)
    simp at this
    simp [this]
  | case5 begun m' rest hmodifier ih =>
    have := ih h
    simp at this ⊢
    tauto
  | case6 begun m' rest hmodifier ih =>
    rcases List.mem_cons.1 h with heq | hmem
    · obtain rfl : specification = begun ++ [m'] := by simpa using heq
      simp at hm ⊢
      tauto
    · have := ih hmem
      simp at this
      simp [this]

end Directives

section Origins

variable {text before after : Text} {n : ℕ}

/-- No percent sign of the text was given to the program. -/
def Clean (text : Text) : Prop := ⟨.data, percent⟩ ∉ text

/-- No percent sign of the text is one that the program has written. -/
def Unformatted (text : Text) : Prop := ⟨.literal, percent⟩ ∉ text

/-- A text is printed as it is if and only if no percent sign in it was given to the program. -/
theorem verbatim_ofText_iff (h : Unformatted text) : (Call.ofText text).Verbatim ↔ Clean text := by
  have horigin : ∀ m ∈ text, m.byte = percent → m.origin = .data := by
    rintro ⟨origin, byte⟩ hm hbyte
    cases origin with
    | data => rfl
    | literal =>
      obtain rfl : byte = percent := hbyte
      exact absurd hm h
  constructor
  · rintro ⟨hgenuine, -⟩ hmem
    obtain ⟨m, hm, hbyte, more, hmore⟩ := exists_conversion ⟨_, hmem, rfl⟩
    have hliteral := hgenuine (m :: more) hmore m rfl
    rw [horigin m hm hbyte] at hliteral
    cases hliteral
  · intro hclean
    have hordinary : ∀ m ∈ text, m.byte ≠ percent := by
      rintro ⟨origin, byte⟩ hm hbyte
      obtain rfl : byte = percent := hbyte
      obtain rfl : origin = .data := horigin _ hm rfl
      exact hclean hm
    have hscan := scan_ordinary hordinary
    constructor
    · intro specification hmem
      rw [Call.ofText, hscan] at hmem
      simp at hmem
    · intro unspecified
      rw [Call.ofText, hscan, render_ordinary]

/-- In a format of the program's own no conversion comes from elsewhere. -/
theorem origin_of_literal {format : List UInt8} {specification : Text} {m : Mark}
    (h : .conversion specification ∈ scan none (literal format)) (hm : specification.head? = some m) :
    m.origin = .literal := by
  rcases mem_of_mem_conversion h (List.mem_of_mem_head? hm) with hbegun | hmem
  · simp at hbegun
  · obtain ⟨b, -, rfl⟩ := List.mem_map.1 hmem
    rfl

@[simp] theorem length_literal (format : List UInt8) : (literal format).length = format.length := by
  simp [literal]

@[simp] theorem length_data (given : List UInt8) : (data given).length = given.length := by
  simp [data]

theorem clean_take_append : Clean ((before ++ after).take n) ↔
    Clean (before.take n) ∧ Clean (after.take (n - before.length)) := by
  simp [Clean, List.take_append]

@[simp] theorem clean_take_literal (format : List UInt8) : Clean ((literal format).take n) := by
  intro hmem
  obtain ⟨b, -, hb⟩ := List.mem_map.1 (List.mem_of_mem_take hmem)
  simp at hb

/-- No percent sign in what there is room for. -/
def PlainIn (room : ℕ) (given : List UInt8) : Prop := percent ∉ given.take room

instance (room : ℕ) (given : List UInt8) : Decidable (PlainIn room given) := inferInstanceAs (Decidable (_ ∉ _))

theorem PlainIn.mono {room room' : ℕ} {given : List UInt8} (h : PlainIn room given) (hle : room' ≤ room) :
    PlainIn room' given :=
  fun hmem => h ((List.take_sublist_take_left hle).mem hmem)

@[simp] theorem clean_take_data (room : ℕ) (given : List UInt8) :
    Clean ((data given).take room) ↔ PlainIn room given := by
  simp [Clean, PlainIn, data, ← List.map_take]

theorem Unformatted.append (h : Unformatted before) (h' : Unformatted after) : Unformatted (before ++ after) := by
  simp only [Unformatted, List.mem_append, not_or]
  exact ⟨h, h'⟩

theorem Unformatted.take (h : Unformatted text) (n : ℕ) : Unformatted (text.take n) :=
  fun hmem => h (List.mem_of_mem_take hmem)

theorem unformatted_data (given : List UInt8) : Unformatted (data given) := by
  simp [Unformatted, data]

theorem unformatted_literal {format : List UInt8} (h : percent ∉ format) : Unformatted (literal format) := by
  simpa [Unformatted, literal] using h

end Origins

end Reportman.FormatStrings
