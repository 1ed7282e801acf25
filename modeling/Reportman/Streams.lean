import Mathlib
import Reportman.Framing

/-!
# The bytes of a conversation

However the bytes are cut on their way, none is lost, doubled or moved. What the cutting changes is only where
one command, or one printed answer, ends and the next begins.
-/
namespace Reportman.Streams
open Resumable Daemon Framing
open FileSystem (Bytes bytes)

/-- What the daemon says as it gives a client up. -/
def goodbye : Bytes := bytes "Timeout reached. Closing connection."

theorem timeoutMsg_eq : timeoutMsg = goodbye ++ [0] := by
  simp [timeoutMsg, goodbye]

theorem goodbye_plain : 0 ∉ goodbye := by
  decide

/-- Any step, with whatever cuts. -/
def AnyStep (fd : ℤ) (s s' : Connection) : Prop := ∃ act, Step fd act s s'

/-- What has been made of the bytes of the commands, and of those of the replies. -/
structure Conserved (commands : List Bytes) (s : Connection) : Prop where
  handled : s.handled.flatten <+: commands.flatten
  nonempty : [] ∉ s.handled
  settled : s.closed = true → s.up = [] → (∀ command next, s.daemon ≠ .call (.execute command) next) →
    s.handled.flatten = commands.flatten
  printed : s.printed.flatten <+: s.replies.flatten ++ goodbye
  printed_le : s.printed.length ≤ commands.length
  printed_eq : s.closed = true → s.printed.length = commands.length

section Cuts

/-- A read takes a part of the text, up to the mark that may end it. -/
theorem takeWhile_cut {chunk rest text tail : Bytes} (h : chunk ++ rest = text ++ tail) (htext : 0 ∉ text)
    (htail : tail = [] ∨ tail = [0]) : ∃ text' tail', rest = text' ++ tail' ∧
      text = chunk.takeWhile (· ≠ 0) ++ text' ∧ (tail' = [] ∨ tail' = tail) := by
  rcases List.append_eq_append_iff.1 h with ⟨more, rfl, hrest⟩ | ⟨more, rfl, htail'⟩
  · have hchunk : 0 ∉ chunk := by
      simp at htext
      exact htext.1
    exact ⟨more, tail, hrest, by rw [takeWhile_message hchunk], .inr rfl⟩
  · have hmore : (more = [] ∧ rest = tail) ∨ (more = [0] ∧ rest = []) := by
      rcases htail with rfl | rfl
      · simp at htail'
        simp [htail']
      · rcases more with _ | ⟨b, bs⟩
        · simp at htail'
          simp [htail']
        · simp at htail'
          simp [htail']
    rcases hmore with ⟨rfl, rfl⟩ | ⟨rfl, rfl⟩
    · exact ⟨[], rest, rfl, by rw [List.append_nil, List.append_nil, takeWhile_message htext], .inr rfl⟩
    · refine ⟨[], [], rfl, ?_, .inl rfl⟩
      have hmark : ([0] : Bytes).takeWhile (· ≠ 0) = [] := by simp
      have hpos : ∀ b ∈ text, decide (b ≠ 0) = true := by
        intro b hb
        simpa using fun hzero : b = 0 => htext (hzero ▸ hb)
      rw [List.takeWhile_append_of_pos hpos, hmark, List.append_nil, List.append_nil]

end Cuts

section Places

/-- Where the client is: what it has received and not printed, whether it awaits an answer, and what it has not
sent yet. -/
inductive ClientAt : ClientProg Unit → Bytes → ℕ → List Bytes → Prop
  | sends (after : List Bytes) : ClientAt (clientMain after) [] 0 after
  | waits (after : List Bytes) : ClientAt (awaits after) [] 1 after
  | prints (text : Bytes) (after : List Bytes) :
      ClientAt (.call (.print text) fun _ => clientMain after) text 1 after
  | done : ClientAt (.ret ()) [] 0 []

/-- Where the daemon is: the command it has taken and not handled, what it is about to answer, and whether this
is its last answer. -/
inductive DaemonAt (fd : ℤ) : DaemonProg (Option DaemonState) → Bytes → Bytes → Bool → Prop
  | waits (d : DaemonState) (n : ℕ) : DaemonAt fd (session fd d n) [] [] false
  | reads (d : DaemonState) (n : ℕ) : DaemonAt fd (reading fd d n .ready) [] [] false
  | executes (command : Bytes) (d : DaemonState) (n : ℕ) (hne : command ≠ []) :
      DaemonAt fd (.call (.execute command) fun response => answering fd d n response) command [] false
  | answers (response : Bytes) (d : DaemonState) (n : ℕ) : DaemonAt fd (answering fd d n response) [] response false
  | leaves (d : DaemonState) {selected : Ipc.SelectResult} (hselected : selected ≠ .error) :
      DaemonAt fd (farewell fd d selected) [] timeoutMsg true
  | done (d : DaemonState) : DaemonAt fd (.ret (some d)) [] [] true

variable {p : ClientProg Unit} {pending : Bytes} {asked : ℕ} {after : List Bytes}

theorem ClientAt.write (h : ClientAt p pending asked after) {command : Bytes} {next : Bool → ClientProg Unit}
    (hp : p = .call (.write command) next) :
    ∃ after', after = command :: after' ∧ pending = [] ∧ asked = 0 ∧ next true = awaits after' := by
  cases h with
  | sends after =>
    cases after with
    | nil => cases hp
    | cons c after =>
      rw [clientMain_cons] at hp
      cases hp
      exact ⟨after, rfl, rfl, rfl, rfl⟩
  | waits after => cases hp
  | prints text after => cases hp
  | done => cases hp

theorem ClientAt.read (h : ClientAt p pending asked after) {next : Option Bytes → ClientProg Unit}
    (hp : p = .call .read next) : pending = [] ∧ asked = 1 ∧ ∀ buffer,
      next (some buffer) = .call (.print (buffer.takeWhile (· ≠ 0))) fun _ => clientMain after := by
  cases h with
  | sends after =>
    cases after with
    | nil => cases hp
    | cons c after =>
      rw [clientMain_cons] at hp
      cases hp
  | waits after =>
    cases hp
    exact ⟨rfl, rfl, fun _ => rfl⟩
  | prints text after => cases hp
  | done => cases hp

theorem ClientAt.print (h : ClientAt p pending asked after) {text : Bytes} {next : Unit → ClientProg Unit}
    (hp : p = .call (.print text) next) : pending = text ∧ asked = 1 ∧ next () = clientMain after := by
  cases h with
  | sends after =>
    cases after with
    | nil => cases hp
    | cons c after =>
      rw [clientMain_cons] at hp
      cases hp
  | waits after => cases hp
  | prints text after =>
    cases hp
    exact ⟨rfl, rfl, rfl⟩
  | done => cases hp

theorem ClientAt.close (h : ClientAt p pending asked after) {next : Unit → ClientProg Unit}
    (hp : p = .call .close next) : pending = [] ∧ asked = 0 ∧ after = [] ∧ next () = .ret () := by
  cases h with
  | sends after =>
    cases after with
    | nil =>
      cases hp
      exact ⟨rfl, rfl, rfl, rfl⟩
    | cons c after =>
      rw [clientMain_cons] at hp
      cases hp
  | waits after => cases hp
  | prints text after => cases hp
  | done => cases hp

variable {fd : ℤ} {q : DaemonProg (Option DaemonState)} {held unsent : Bytes} {left : Bool}

theorem farewell_writes (d : DaemonState) {selected : Ipc.SelectResult} (h : selected ≠ .error) :
    farewell fd d selected = .call (.writeClient fd timeoutMsg) fun r => written d r >>= fun _ => .ret (some d) := by
  unfold farewell
  rw [if_neg h]
  exact congrArg (Program.call (DaemonSys.writeClient fd timeoutMsg)) (funext fun r => bind_assoc (written d r) _ _)

theorem session_not_read {d : DaemonState} {n : ℕ} {op : DaemonSys}
    {next : op.Res → DaemonProg (Option DaemonState)} (h : session fd d n = .call op next)
    (hop : ∀ fd, op ≠ .selectClient fd) : False :=
  hop fd (session_op h)

theorem DaemonAt.select (h : DaemonAt fd q held unsent left)
    {next : Ipc.SelectResult → DaemonProg (Option DaemonState)} (hq : q = .call (.selectClient fd) next) :
    held = [] ∧ unsent = [] ∧ left = false ∧ DaemonAt fd (next .ready) [] [] false ∧
      DaemonAt fd (next .timeout) [] timeoutMsg true := by
  cases h with
  | waits d n =>
    obtain ⟨⟨m, hready⟩, htimeout⟩ := session_select hq
    rw [hready, htimeout]
    exact ⟨rfl, rfl, rfl, .reads d m, .leaves d nofun⟩
  | reads d n => cases hq
  | executes command d n hne => cases hq
  | answers response d n => cases hq
  | leaves d hselected =>
    rw [farewell_writes d hselected] at hq
    cases hq
  | done d => cases hq

theorem DaemonAt.read (h : DaemonAt fd q held unsent left)
    {next : Option Bytes → DaemonProg (Option DaemonState)} (hq : q = .call (.readClient fd) next) :
    held = [] ∧ unsent = [] ∧ left = false ∧ DaemonAt fd (next (some [])) [] timeoutMsg true ∧
      ∀ chunk, chunk ≠ [] → 0 ∉ chunk → DaemonAt fd (next (some chunk)) chunk [] false := by
  cases h with
  | waits d n => exact (session_not_read hq nofun).elim
  | reads d n =>
    cases hq
    refine ⟨rfl, rfl, rfl, .leaves d nofun, fun chunk hchunk hzero => ?_⟩
    obtain ⟨b, bs, rfl⟩ := List.exists_cons_of_ne_nil hchunk
    dsimp only
    rw [takeWhile_message hzero]
    exact .executes _ _ n hchunk
  | executes command d n hne => cases hq
  | answers response d n => cases hq
  | leaves d hselected =>
    rw [farewell_writes d hselected] at hq
    cases hq
  | done d => cases hq

theorem DaemonAt.execute (h : DaemonAt fd q held unsent left) {command : Bytes}
    {next : Bytes → DaemonProg (Option DaemonState)} (hq : q = .call (.execute command) next) :
    held = command ∧ command ≠ [] ∧ unsent = [] ∧ left = false ∧
      ∀ response, DaemonAt fd (next response) [] response false := by
  cases h with
  | waits d n => exact (session_not_read hq nofun).elim
  | reads d n => cases hq
  | executes command d n hne =>
    cases hq
    exact ⟨rfl, hne, rfl, rfl, fun response => .answers response d n⟩
  | answers response d n => cases hq
  | leaves d hselected =>
    rw [farewell_writes d hselected] at hq
    cases hq
  | done d => cases hq

theorem DaemonAt.answer (h : DaemonAt fd q held unsent left) {text : Bytes}
    {next : FmLoop.WriteResult → DaemonProg (Option DaemonState)} (hq : q = .call (.writeClient fd text) next) :
    held = [] ∧ unsent = text ∧ DaemonAt fd (next .written) [] [] left := by
  cases h with
  | waits d n => exact (session_not_read hq nofun).elim
  | reads d n => cases hq
  | executes command d n hne => cases hq
  | answers response d n =>
    cases hq
    exact ⟨rfl, rfl, .waits d n⟩
  | leaves d hselected =>
    rw [farewell_writes d hselected] at hq
    cases hq
    exact ⟨rfl, rfl, .done d⟩
  | done d => cases hq

/-- A command is held only at the call that handles it. -/
theorem DaemonAt.held_eq_nil (h : DaemonAt fd q held unsent left)
    (hq : ∀ command next, q ≠ .call (.execute command) next) : held = [] := by
  cases h with
  | waits d n => rfl
  | reads d n => rfl
  | executes command d n hne => exact absurd rfl (hq _ _)
  | answers response d n => rfl
  | leaves d hselected => rfl
  | done d => rfl

end Places

section Accounts

/-- The bytes that are in neither log: what `ClientAt` and `DaemonAt` keep, and the text on its way to the client
with the mark that ends it. -/
structure Account where
  pending : Bytes
  asked : ℕ
  after : List Bytes
  held : Bytes
  unsent : Bytes
  left : Bool
  text : Bytes
  mark : Bytes

variable {fd : ℤ} {commands : List Bytes} {act : Act} {s s' : Connection} {a : Account}

structure Balanced (fd : ℤ) (commands : List Bytes) (s : Connection) (a : Account) : Prop where
  client : ClientAt s.client a.pending a.asked a.after
  daemon : DaemonAt fd s.daemon a.held a.unsent a.left
  taken : s.handled.flatten ++ a.held ++ s.up ++ a.after.flatten = commands.flatten
  nonempty : [] ∉ s.handled
  down : s.down ++ a.unsent = a.text ++ a.mark
  plain : 0 ∉ a.text
  mark : a.mark = [] ∨ a.left = true ∧ a.mark = [0]
  given : s.printed.flatten ++ a.pending ++ a.text = s.replies.flatten ++ if a.left = true then goodbye else []
  count : s.printed.length + a.asked + a.after.length = commands.length
  closed : s.closed = true → a.asked = 0 ∧ a.after = []

theorem connected_balanced (commands : List Bytes) (d : DaemonState) (exchanges : ℕ) :
    Balanced fd commands (connected fd commands d exchanges) ⟨[], 0, commands, [], [], false, [], []⟩ where
  client := .sends commands
  daemon := .waits d exchanges
  taken := by simp [connected]
  nonempty := by simp [connected]
  down := rfl
  plain := by simp
  mark := .inl rfl
  given := by simp [connected]
  count := by simp [connected]
  closed := nofun

theorem Balanced.conserved (h : Balanced fd commands s a) : Conserved commands s where
  handled := by
    have htaken := h.taken
    simp only [List.append_assoc] at htaken
    exact ⟨_, htaken⟩
  nonempty := h.nonempty
  settled := by
    intro hclosed hup hidle
    obtain ⟨-, hafter⟩ := h.closed hclosed
    have htaken := h.taken
    simpa [hup, hafter, h.daemon.held_eq_nil hidle] using htaken
  printed := by
    have hgiven := h.given
    simp only [List.append_assoc] at hgiven
    cases hleft : a.left with
    | true =>
      simp only [hleft] at hgiven
      exact ⟨_, hgiven⟩
    | false =>
      simp [hleft] at hgiven
      rw [← hgiven]
      simp only [List.append_assoc]
      exact List.prefix_append _ _
  printed_le := by
    have hcount := h.count
    omega
  printed_eq := by
    intro hclosed
    obtain ⟨hasked, hafter⟩ := h.closed hclosed
    simpa [hasked, hafter] using h.count

theorem Balanced.client_step (h : Balanced fd commands s a) (hstep : ClientStep act s s') :
    ∃ a', Balanced fd commands s' a' := by
  cases hstep with
  | @send _ command next hcall =>
    obtain ⟨after', hafter, hpending, hasked, hnext⟩ := h.client.write hcall
    refine ⟨{ a with pending := [], asked := 1, after := after' }, ?_⟩
    exact {
      client := by
        dsimp only
        rw [hnext]
        exact .waits after'
      daemon := h.daemon
      taken := by
        have htaken := h.taken
        rw [hafter] at htaken
        simpa using htaken
      nonempty := h.nonempty
      down := h.down
      plain := h.plain
      mark := h.mark
      given := by
        have hgiven := h.given
        simpa [hpending] using hgiven
      count := by
        have hcount := h.count
        rw [hafter] at hcount
        simp only [List.length_cons] at hcount
        dsimp only
        omega
      closed := by
        intro hclosed
        have hnil := (h.closed hclosed).2
        simp [hafter] at hnil }
  | @receive _ next chunk rest hcall hdown hsome hbuffer =>
    obtain ⟨hpending, hasked, hnext⟩ := h.client.read hcall
    have hcut : chunk ++ (rest ++ a.unsent) = a.text ++ a.mark := by
      rw [← List.append_assoc, ← hdown]
      exact h.down
    have hmark : a.mark = [] ∨ a.mark = [0] := by
      rcases h.mark with hmark | ⟨-, hmark⟩
      · exact .inl hmark
      · exact .inr hmark
    obtain ⟨text, mark, hrest, htext, hmark'⟩ := takeWhile_cut hcut h.plain hmark
    have hplain := h.plain
    rw [htext] at hplain
    simp only [List.mem_append, not_or] at hplain
    refine ⟨{ a with pending := chunk.takeWhile (· ≠ 0), text := text, mark := mark }, ?_⟩
    exact {
      client := by
        dsimp only
        rw [hnext, hasked]
        exact .prints _ a.after
      daemon := h.daemon
      taken := h.taken
      nonempty := h.nonempty
      down := hrest
      plain := hplain.2
      mark := by
        rcases hmark' with rfl | rfl
        · exact .inl rfl
        · exact h.mark
      given := by
        have hgiven := h.given
        rw [hpending, htext, List.append_nil, ← List.append_assoc] at hgiven
        exact hgiven
      count := h.count
      closed := h.closed }
  | @hangup _ next d hcall hdaemon hdown =>
    obtain ⟨hpending, hasked, hnext⟩ := h.client.read hcall
    refine ⟨a, ?_⟩
    exact { h with
      client := by
        dsimp only
        rw [hnext, hasked, hpending]
        exact .prints [] a.after }
  | @print _ text next hcall =>
    obtain ⟨hpending, hasked, hnext⟩ := h.client.print hcall
    refine ⟨{ a with pending := [], asked := 0 }, ?_⟩
    exact { h with
      client := by
        dsimp only
        rw [hnext]
        exact .sends a.after
      given := by
        have hgiven := h.given
        rw [hpending] at hgiven
        simpa using hgiven
      count := by
        have hcount := h.count
        simp only [List.length_append, List.length_singleton]
        omega
      closed := by
        intro hclosed
        have hzero := (h.closed hclosed).1
        omega }
  | @close _ next hcall =>
    obtain ⟨hpending, hasked, hafter, hnext⟩ := h.client.close hcall
    refine ⟨a, ?_⟩
    exact { h with
      client := by
        dsimp only
        rw [hnext, hpending, hasked, hafter]
        exact .done
      closed := fun _ => ⟨hasked, hafter⟩ }

/-- What has been sent is a part of the commands. -/
theorem Balanced.up_plain (h : Balanced fd commands s a) (hcommands : 0 ∉ commands.flatten) : 0 ∉ s.up := by
  have htaken := h.taken
  rw [← htaken] at hcommands
  simp only [List.mem_append, not_or] at hcommands
  exact hcommands.1.2

theorem Balanced.mark_eq_nil (h : Balanced fd commands s a) (hleft : a.left = false) : a.mark = [] := by
  rcases h.mark with hmark | ⟨hleft', hmark⟩
  · exact hmark
  · simp [hleft] at hleft'

/-- The daemon takes its leave. -/
theorem Balanced.leave (h : Balanced fd commands s a) (hheld : a.held = []) (hunsent : a.unsent = [])
    (hleft : a.left = false) {daemon : DaemonProg (Option DaemonState)}
    (hdaemon : DaemonAt fd daemon [] timeoutMsg true) :
    Balanced fd commands { s with daemon := daemon }
      { a with held := [], unsent := timeoutMsg, left := true, text := a.text ++ goodbye, mark := [0] } := by
  have hmark := h.mark_eq_nil hleft
  have hdown := h.down
  have hgiven := h.given
  rw [hunsent, hmark] at hdown
  exact {
    client := h.client
    daemon := hdaemon
    taken := by
      have htaken := h.taken
      rw [hheld] at htaken
      exact htaken
    nonempty := h.nonempty
    down := by
      simp only [List.append_nil] at hdown
      dsimp only
      rw [timeoutMsg_eq, hdown, List.append_assoc]
    plain := by
      have hplain := h.plain
      simp [hplain, goodbye_plain]
    mark := .inr ⟨rfl, rfl⟩
    given := by
      simp [hleft] at hgiven
      simp [← hgiven]
    count := h.count
    closed := h.closed }

theorem Balanced.daemon_step (hcommands : 0 ∉ commands.flatten) (h : Balanced fd commands s a)
    (hstep : DaemonStep fd act s s') : ∃ a', Balanced fd commands s' a' := by
  cases hstep with
  | select hcall hready =>
    obtain ⟨hheld, hunsent, hleft, hnext, -⟩ := h.daemon.select hcall
    refine ⟨a, ?_⟩
    exact { h with
      daemon := by
        rw [hheld, hunsent, hleft]
        exact hnext }
  | expire hcall hup =>
    obtain ⟨hheld, hunsent, hleft, -, hnext⟩ := h.daemon.select hcall
    exact ⟨_, h.leave hheld hunsent hleft hnext⟩
  | @take _ next chunk rest hcall hup hsome hbuffer =>
    obtain ⟨hheld, hunsent, hleft, -, hnext⟩ := h.daemon.read hcall
    have hplain : 0 ∉ chunk := by
      have hzero := h.up_plain hcommands
      simp only [hup, List.mem_append, not_or] at hzero
      exact hzero.1
    refine ⟨{ a with held := chunk }, ?_⟩
    exact { h with
      daemon := by
        dsimp only
        rw [hunsent, hleft]
        exact hnext chunk hsome hplain
      taken := by
        have htaken := h.taken
        simpa [hheld, hup] using htaken }
  | eof hcall hup hclosed =>
    obtain ⟨hheld, hunsent, hleft, hnext, -⟩ := h.daemon.read hcall
    exact ⟨_, h.leave hheld hunsent hleft hnext⟩
  | @execute _ command next response hcall hreply =>
    obtain ⟨hheld, hne, hunsent, hleft, hnext⟩ := h.daemon.execute hcall
    have hmark := h.mark_eq_nil hleft
    have hdown := h.down
    have hgiven := h.given
    rw [hunsent, hmark] at hdown
    refine ⟨{ a with held := [], unsent := response, text := a.text ++ response }, ?_⟩
    exact { h with
      daemon := by
        dsimp only
        rw [hleft]
        exact hnext response
      taken := by
        have htaken := h.taken
        simpa [hheld] using htaken
      nonempty := by
        have hnonempty := h.nonempty
        simp [hnonempty, hne]
      down := by
        simp only [List.append_nil] at hdown
        dsimp only
        rw [hdown, hmark, List.append_nil]
      plain := by
        have hplain := h.plain
        simp [hplain, hreply.2.2]
      given := by
        simp [hleft] at hgiven ⊢
        rw [← hgiven]
        simp }
  | @answer _ text next hcall =>
    obtain ⟨hheld, hunsent, hnext⟩ := h.daemon.answer hcall
    refine ⟨{ a with held := [], unsent := [] }, ?_⟩
    exact { h with
      daemon := hnext
      taken := by
        have htaken := h.taken
        simpa [hheld] using htaken
      down := by
        have hdown := h.down
        rw [hunsent] at hdown
        simpa using hdown }

theorem Balanced.step (hcommands : 0 ∉ commands.flatten) (h : Balanced fd commands s a) (hstep : AnyStep fd s s') :
    ∃ a', Balanced fd commands s' a' := by
  obtain ⟨act, hclient | hdaemon⟩ := hstep
  · exact h.client_step hclient
  · exact h.daemon_step hcommands hdaemon

theorem Balanced.run (hcommands : 0 ∉ commands.flatten) (h : Balanced fd commands s a)
    (hrun : Relation.ReflTransGen (AnyStep fd) s s') : ∃ a', Balanced fd commands s' a' := by
  induction hrun with
  | refl => exact ⟨a, h⟩
  | tail _ hstep ih =>
    obtain ⟨a', h'⟩ := ih
    exact h'.step hcommands hstep

/-- However the bytes are cut, as long as no command holds the byte that ends a string. -/
theorem connected_conserved {commands : List Bytes} (hcommands : ∀ command ∈ commands, 0 ∉ command)
    {d : DaemonState} {exchanges : ℕ}
    (hrun : Relation.ReflTransGen (AnyStep fd) (connected fd commands d exchanges) s) : Conserved commands s := by
  have hflat : 0 ∉ commands.flatten := by
    intro hmem
    obtain ⟨command, hcommand, hzero⟩ := List.mem_flatten.1 hmem
    exact hcommands command hcommand hzero
  obtain ⟨a, h⟩ := (connected_balanced commands d exchanges).run hflat hrun
  exact h.conserved

/-- One command, handled as two, with one letter of the answers printed. -/
theorem connected_conserved_cut : ∃ s, Relation.ReflTransGen (AnyStep 7)
      (connected 7 [bytes "backup"] (initially fun _ => 3) 3) s ∧ s.handled = [bytes "ba", bytes "ckup"] ∧
      s.printed = [bytes "o"] ∧ s.closed = true ∧ Conserved [bytes "backup"] s := by
  have hcommands : ∀ command ∈ [bytes "backup"], 0 ∉ command := by
    intro command hcommand
    obtain rfl := List.mem_singleton.1 hcommand
    decide
  obtain ⟨s, hrun, hhandled, hprinted, hclosed⟩ : ∃ s, Relation.ReflTransGen (AnyStep 7)
      (connected 7 [bytes "backup"] (initially fun _ => 3) 3) s ∧ s.handled = [bytes "ba", bytes "ckup"] ∧
      s.printed = [bytes "o"] ∧ s.closed = true :=
    ⟨_, .head ⟨.other, .inl (.send rfl)⟩ <|
      .head ⟨.other, .inr (.select rfl (.inl (by decide)))⟩ <|
      .head ⟨.take (bytes "ckup"), .inr (@DaemonStep.take 7 _ _ (bytes "ba") (bytes "ckup") rfl rfl (by decide)
        (by decide))⟩ <|
      .head ⟨.other, .inr (.execute rfl ok_isReply)⟩ <|
      .head ⟨.other, .inr (.answer rfl)⟩ <|
      .head ⟨.other, .inr (.select rfl (.inl (by decide)))⟩ <|
      .head ⟨.take [], .inr (@DaemonStep.take 7 _ _ (bytes "ckup") [] rfl rfl (by decide) (by decide))⟩ <|
      .head ⟨.other, .inr (.execute rfl ok_isReply)⟩ <|
      .head ⟨.other, .inr (.answer rfl)⟩ <|
      .head ⟨.receive (bytes "kok"), .inl (@ClientStep.receive _ _ (bytes "o") (bytes "kok") rfl rfl (by decide)
        (by decide))⟩ <|
      .head ⟨.other, .inl (.print rfl)⟩ <|
      .single ⟨.other, .inl (.close rfl)⟩, rfl, rfl, rfl⟩
  exact ⟨s, hrun, hhandled, hprinted, hclosed, connected_conserved hcommands hrun⟩

end Accounts

end Reportman.Streams
