import Mathlib
import Reportman.MonitorLog

/-!
# The watches of the monitor

`mt_initialize_inotify` asks for a watch for each path and keeps its descriptor beside a copy of the path; an
event is logged under the first path that has its descriptor. The kernel has one watch for a directory, whatever
paths lead to it, and gives it up when the directory is gone. Between any two calls paths may come to name
something else. All that the monitor has taken it gives back when it ends: each block once, and each watch that
has not gone with its directory at the first of the calls that name it, the others being refused.
-/
namespace Reportman.Watches
open Resumable
open MonitorLog (InotifyEvent DirMonitored monitorOf eventMasks getLogMessage)
open FileSystem (Bytes bytes)

section Source

inductive WatchSys
  | inotifyInit
  | malloc (count : ℕ)
  | strdup (path : Bytes)
  | inotifyAddWatch (fd : ℤ) (path : Bytes) (mask : UInt32)
  | readEvents (fd : ℤ)
  | logEvent (path : Bytes) (event : InotifyEvent)
  | free (block : Option ℕ)
  | inotifyRmWatch (fd wd : ℤ)
  | close (fd : ℤ)

/-- A block of memory is known by a number. -/
abbrev WatchSys.Res : WatchSys → Type
  | .inotifyInit => ℤ
  | .malloc _ => ℕ
  | .strdup _ => ℕ
  | .inotifyAddWatch _ _ _ => ℤ
  | .readEvents _ => List InotifyEvent
  | .logEvent _ _ => Unit
  | .free _ => Unit
  | .inotifyRmWatch _ _ => ℤ
  | .close _ => Unit

abbrev WatchProg := Program WatchSys WatchSys.Res

def sys (op : WatchSys) : WatchProg op.Res := Program.perform op

/-- `dir_monitored_t`, with the block that `path` points to. -/
structure Monitored where
  monitor : DirMonitored
  block : ℕ

/-- `monitor_t`, with the block that `monitors` points to. -/
structure Monitor where
  array : Option ℕ
  monitors : List Monitored
  noMonitors : ℤ

/-- `monitor_t monitor = {}`. -/
def noMonitor : Monitor := ⟨none, [], 0⟩

/-- The monitors that a loop up to `no_monitors` comes to. -/
def Monitor.registered (monitor : Monitor) : List Monitored := monitor.monitors.take monitor.noMonitors.toNat

def monTEventMask : UInt32 :=
  0x1 ||| 0x4 ||| 0x2 ||| 0x100 ||| 0x200 ||| 0x20 ||| 0x8 ||| 0x10 ||| 0x400 ||| 0x800 ||| 0x40 ||| 0x80

/-- An event that has been asked for is called by its name. -/
theorem getLogMessage_asked {event : InotifyEvent} (h : event.mask &&& monTEventMask ≠ 0) :
    ∃ entry ∈ eventMasks, event.mask &&& entry.1 ≠ 0 ∧ getLogMessage event = entry.2 := by
  unfold getLogMessage
  cases hfind : eventMasks.find? fun entry => event.mask &&& entry.1 ≠ 0 with
  | some entry =>
    have hmask : event.mask &&& entry.1 ≠ 0 := by simpa using List.find?_some hfind
    exact ⟨entry, List.mem_of_find?_eq_some hfind, hmask, rfl⟩
  | none =>
    have hnone : ∀ entry ∈ eventMasks, event.mask &&& entry.1 = 0 := by simpa using hfind
    have hor : ∀ a b : UInt32, event.mask &&& a = 0 → event.mask &&& b = 0 → event.mask &&& (a ||| b) = 0 := by
      intro a b ha hb
      rw [← UInt32.toBitVec_inj, UInt32.toBitVec_and] at ha hb ⊢
      rw [UInt32.toBitVec_or, BitVec.and_or_distrib_left, ha, hb]
      rfl
    have hall : ∀ bits : List UInt32, (∀ b ∈ bits, event.mask &&& b = 0) →
        event.mask &&& bits.foldl (· ||| ·) 0 = 0 := by
      intro bits
      induction bits using List.reverseRecOn with
      | nil => exact fun _ => UInt32.and_zero
      | append_singleton bits b ih =>
        intro hbits
        rw [List.foldl_append]
        refine hor _ _ (ih fun b' hb' => hbits b' (List.mem_append_left _ hb')) (hbits b ?_)
        exact List.mem_append_right _ (List.mem_singleton_self b)
    have hmask : monTEventMask = (eventMasks.map Prod.fst).foldl (· ||| ·) 0 := by decide
    refine absurd ?_ h
    rw [hmask]
    refine hall _ fun b hb => ?_
    obtain ⟨entry, hentry, rfl⟩ := List.mem_map.1 hb
    exact hnone entry hentry

/-- A directory that cannot be watched ends the process. -/
def addMonitors (inotifyFd : ℤ) : List Bytes → WatchProg (List Monitored)
  | [] => return []
  | path :: paths => do
      let block ← sys (.strdup path)
      let wd ← sys (.inotifyAddWatch inotifyFd path monTEventMask)
      if wd < 0 then .halt
      else do
        let monitors ← addMonitors inotifyFd paths
        return ⟨⟨path, wd⟩, block⟩ :: monitors

/-- The number of paths becomes an `int`. -/
def mtInitializeInotify (paths : List Bytes) : WatchProg (ℤ × Monitor) := do
  let inotifyFd ← sys .inotifyInit
  if inotifyFd < 0 then return (-1, noMonitor)
  else do
    let array ← sys (.malloc paths.length)
    let monitors ← addMonitors inotifyFd paths
    return (inotifyFd, ⟨some array, monitors, Int.bmod paths.length (2 ^ 32)⟩)

def mtEventProcess (monitor : Monitor) (event : InotifyEvent) : WatchProg Unit :=
  match monitorOf (monitor.registered.map Monitored.monitor) event with
  | none => return ()
  | some found => sys (.logEvent found.path event)

def processEvents (monitor : Monitor) : List InotifyEvent → WatchProg Unit
  | [] => return ()
  | event :: events => do
      mtEventProcess monitor event
      processEvents monitor events

/-- The rounds of the loop of `__monitor_paths` in which there are events. -/
def monitorRounds (inotifyFd : ℤ) (monitor : Monitor) : ℕ → WatchProg Unit
  | 0 => return ()
  | rounds + 1 => do
      let events ← sys (.readEvents inotifyFd)
      processEvents monitor events
      monitorRounds inotifyFd monitor rounds

def freeMonitors (inotifyFd : ℤ) : List Monitored → WatchProg Unit
  | [] => return ()
  | monitored :: rest => do
      sys (.free (some monitored.block))
      let _ ← sys (.inotifyRmWatch inotifyFd monitored.monitor.wd)
      freeMonitors inotifyFd rest

def mtShutdownInotify (inotifyFd : ℤ) (monitor : Monitor) : WatchProg Unit := do
  freeMonitors inotifyFd monitor.registered
  sys (.free monitor.array)
  sys (.close inotifyFd)

/-- What `__monitor_paths` does about the directories. -/
def monitorPaths (paths : List Bytes) (rounds : ℕ) : WatchProg Unit := do
  let (inotifyFd, monitor) ← mtInitializeInotify paths
  monitorRounds inotifyFd monitor rounds
  mtShutdownInotify inotifyFd monitor

end Source

section Kernel

/-- A call that has given a path a watch: the directory that the path named, and the descriptor. -/
structure Added where
  path : Bytes
  inode : ℕ
  wd : ℤ

/-- The watches are directories with their descriptors. `asked` are the descriptors that the monitor has wanted
removed; of the watches that there have been, those of `removed` have gone for that, those of `lost` with their
directory and those of `left` only with the device. `got` and `logged` are the events that have been processed and
those that have been logged. -/
structure World where
  device : Option ℤ
  watches : List (ℕ × ℤ)
  lastWd : ℕ
  added : List Added
  asked : List ℤ
  removed : List ℤ
  lost : List ℤ
  left : List ℤ
  heap : List ℕ
  nextBlock : ℕ
  sound : Bool
  got : List InotifyEvent
  logged : List (Bytes × InotifyEvent)

def start : World := ⟨none, [], 0, [], [], [], [], [], [], 0, true, [], []⟩

/-- What happens up to the next call, and what the call meets with. -/
structure Turn where
  gone : List ℕ
  names : Bytes → Option ℕ
  fails : Bool
  fd : ℕ
  events : List InotifyEvent

/-- With a directory its watch goes. -/
def World.lose (w : World) (gone : List ℕ) : World :=
  { w with
    watches := w.watches.filter (·.1 ∉ gone)
    lost := w.lost ++ (w.watches.filter (·.1 ∈ gone)).map Prod.snd }

def World.alloc (w : World) : ℕ × World :=
  (w.nextBlock, { w with heap := w.nextBlock :: w.heap, nextBlock := w.nextBlock + 1 })

/-- A directory that has a watch keeps it. -/
def World.addWatch (w : World) (path : Bytes) (inode : ℕ) : ℤ × World :=
  match w.watches.find? (·.1 = inode) with
  | some (_, wd) => (wd, { w with added := w.added ++ [⟨path, inode, wd⟩] })
  | none =>
      let wd := w.lastWd + 1
      (wd, { w with
        watches := (inode, (wd : ℤ)) :: w.watches
        lastWd := wd
        added := w.added ++ [⟨path, inode, wd⟩] })

/-- A watch that is gone cannot be removed. -/
def World.rmWatch (w : World) (wd : ℤ) : ℤ × World :=
  if wd ∈ w.watches.map Prod.snd then
    (0, { w with watches := w.watches.filter (·.2 ≠ wd), removed := w.removed ++ [wd] })
  else (-1, w)

def answer (turn : Turn) : (op : WatchSys) → World → op.Res × World
  | .inotifyInit, w => if turn.fails then ((-1 : ℤ), w) else ((turn.fd : ℤ), { w with device := some turn.fd })
  | .malloc _, w => w.alloc
  | .strdup _, w => w.alloc
  | .inotifyAddWatch fd path _, w =>
      if w.device = some fd ∧ ¬ turn.fails then
        match turn.names path with
        | none => ((-1 : ℤ), w)
        | some inode => w.addWatch path inode
      else ((-1 : ℤ), w)
  | .readEvents fd, w =>
      if w.device = some fd then (turn.events, { w with got := w.got ++ turn.events }) else (([] : List _), w)
  | .logEvent path event, w => ((), { w with logged := w.logged ++ [(path, event)] })
  | .free none, w => ((), w)
  | .free (some block), w =>
      if block ∈ w.heap then ((), { w with heap := w.heap.erase block }) else ((), { w with sound := false })
  | .inotifyRmWatch fd wd, w =>
      let w := { w with asked := w.asked ++ [wd] }
      if w.device = some fd then w.rmWatch wd else ((-1 : ℤ), w)
  | .close fd, w =>
      if w.device = some fd then
        ((), { w with device := none, watches := [], left := w.left ++ w.watches.map Prod.snd })
      else ((), w)

def exec (turn : Turn) (op : WatchSys) (w : World) : op.Res × World := answer turn op (w.lose turn.gone)

/-- The path under which an event goes: the first that was given its descriptor. -/
def attributed (added : List Added) (event : InotifyEvent) : Option (Bytes × InotifyEvent) :=
  (added.find? fun a => a.wd = event.wd).map fun a => (a.path, event)

/-- The descriptors of all watches, of those that there are and of those that have gone. -/
def World.descriptors (w : World) : List ℤ := w.watches.map Prod.snd ++ (w.removed ++ w.lost)

/-- The blocks that a monitor holds. -/
def Monitor.blocks (monitor : Monitor) : List ℕ := monitor.array.toList ++ monitor.registered.map Monitored.block

end Kernel

section Invariants

/-- A descriptor has always stood for one directory, and no watch has gone twice. -/
structure Tracked (w : World) : Prop where
  functional : ∀ a ∈ w.added, ∀ b ∈ w.added, a.wd = b.wd → a.inode = b.inode
  live : ∀ x ∈ w.watches, ∃ a ∈ w.added, a.inode = x.1 ∧ a.wd = x.2
  last : ∀ a ∈ w.added, a.wd ≤ w.lastWd
  once : w.descriptors.Nodup
  given : ∀ wd, wd ∈ w.descriptors ↔ ∃ a ∈ w.added, a.wd = wd

/-- The blocks that are allocated are those. -/
structure Holds (blocks : List ℕ) (w : World) : Prop where
  heap : w.heap.Perm blocks
  nodup : w.heap.Nodup
  next : ∀ b ∈ w.heap, b < w.nextBlock
  sound : w.sound = true

/-- The monitors are those of the calls that gave watches. -/
def Mirrors (monitors : List Monitored) (w : World) : Prop :=
  monitors.map Monitored.monitor = w.added.map fun a => ⟨a.path, a.wd⟩

variable {w : World}

theorem Holds.alloc {blocks : List ℕ} (h : Holds blocks w) : Holds (blocks ++ [w.nextBlock]) w.alloc.2 := by
  refine ⟨?_, ?_, ?_, h.sound⟩
  · exact (h.heap.cons w.nextBlock).trans (List.perm_append_singleton ..).symm
  · exact List.nodup_cons.2 ⟨fun hmem => (h.next _ hmem).false, h.nodup⟩
  · intro b hb
    change b < w.nextBlock + 1
    rcases List.mem_cons.1 hb with rfl | hb
    · exact Nat.lt_succ_self _
    · exact (h.next b hb).trans (Nat.lt_succ_self _)

theorem Tracked.addWatch (h : Tracked w) (path : Bytes) (inode : ℕ) : Tracked (w.addWatch path inode).2 := by
  unfold World.addWatch
  cases hfind : w.watches.find? (·.1 = inode) with
  | some x =>
    obtain ⟨n, wd⟩ := x
    -- the directory is the one that the descriptor has always stood for
    obtain rfl : n = inode := by simpa using List.find?_some hfind
    obtain ⟨old, hold, hinode, hwd⟩ := h.live _ (List.mem_of_find?_eq_some hfind)
    dsimp only at hinode hwd ⊢
    have hsame : ∀ a ∈ w.added, a.wd = wd → a.inode = n := fun a ha heq =>
      (h.functional a ha old hold (heq.trans hwd.symm)).trans hinode
    refine ⟨fun a ha b hb heq => ?_, fun x hx => ?_, fun a ha => ?_, h.once, fun v => (h.given v).trans ?_⟩
    · rcases List.mem_append.1 ha with ha | ha <;> rcases List.mem_append.1 hb with hb | hb
      · exact h.functional a ha b hb heq
      · obtain rfl := List.mem_singleton.1 hb
        exact hsame a ha heq
      · obtain rfl := List.mem_singleton.1 ha
        exact (hsame b hb heq.symm).symm
      · rw [List.mem_singleton.1 ha, List.mem_singleton.1 hb]
    · obtain ⟨a, ha, hax⟩ := h.live x hx
      exact ⟨a, List.mem_append_left _ ha, hax⟩
    · rcases List.mem_append.1 ha with ha | ha
      · exact h.last a ha
      · rw [List.mem_singleton.1 ha]
        exact hwd ▸ h.last old hold
    · constructor
      · rintro ⟨a, ha, hav⟩
        exact ⟨a, List.mem_append_left _ ha, hav⟩
      · rintro ⟨a, ha, rfl⟩
        rcases List.mem_append.1 ha with ha | ha
        · exact ⟨a, ha, rfl⟩
        · rw [List.mem_singleton.1 ha]
          exact ⟨old, hold, hwd⟩
  | none =>
    have hnew : ∀ a ∈ w.added, a.wd ≠ (w.lastWd + 1 : ℕ) := fun a ha heq => by
      have := h.last a ha
      omega
    dsimp only
    refine ⟨fun a ha b hb heq => ?_, fun x hx => ?_, fun a ha => ?_, ?_, fun v => ?_⟩
    · rcases List.mem_append.1 ha with ha | ha <;> rcases List.mem_append.1 hb with hb | hb
      · exact h.functional a ha b hb heq
      · obtain rfl := List.mem_singleton.1 hb
        exact absurd heq (hnew a ha)
      · obtain rfl := List.mem_singleton.1 ha
        exact absurd heq.symm (hnew b hb)
      · rw [List.mem_singleton.1 ha, List.mem_singleton.1 hb]
    · rcases List.mem_cons.1 hx with rfl | hx
      · exact ⟨_, List.mem_append_right _ (List.mem_singleton_self _), rfl, rfl⟩
      · obtain ⟨a, ha, hax⟩ := h.live x hx
        exact ⟨a, List.mem_append_left _ ha, hax⟩
    · rcases List.mem_append.1 ha with ha | ha
      · have := h.last a ha
        dsimp only
        omega
      · rw [List.mem_singleton.1 ha]
    · refine List.nodup_cons.2 ⟨fun hmem => ?_, h.once⟩
      obtain ⟨a, ha, hav⟩ := (h.given _).1 hmem
      exact hnew a ha hav
    · have hcons : ∀ l : List ℤ, v ∈ ((w.lastWd + 1 : ℕ) : ℤ) :: l ↔ v = (w.lastWd + 1 : ℕ) ∨ v ∈ l :=
        fun l => List.mem_cons
      refine (hcons w.descriptors).trans ?_
      rw [h.given]
      simp only [List.mem_append, List.mem_singleton, or_and_right, exists_or, exists_eq_left]
      exact or_comm.trans (or_congr_right eq_comm)

/-- What goes with nothing added: some watches, which are gone from then on. -/
theorem Tracked.of_fewer {w' : World} (h : Tracked w) (hadded : w'.added = w.added) (hlast : w'.lastWd = w.lastWd)
    (hwatches : ∀ x ∈ w'.watches, x ∈ w.watches) (hperm : w'.descriptors.Perm w.descriptors) : Tracked w' := by
  refine ⟨?_, ?_, ?_, hperm.nodup_iff.2 h.once, fun wd => ?_⟩
  · rw [hadded]
    exact h.functional
  · rw [hadded]
    exact fun x hx => h.live x (hwatches x hx)
  · rw [hadded, hlast]
    exact h.last
  · rw [hadded, hperm.mem_iff]
    exact h.given wd

theorem Tracked.lose (h : Tracked w) (gone : List ℕ) : Tracked (w.lose gone) := by
  refine h.of_fewer rfl rfl (fun _ hx => List.mem_of_mem_filter hx) ?_
  have hsplit := List.filter_append_perm (fun x : ℕ × ℤ => decide (x.1 ∉ gone)) w.watches
  have hmap := hsplit.map Prod.snd
  simp only [decide_not, Bool.not_not, List.map_append] at hmap
  refine List.Perm.trans ?_ (hmap.append_right _)
  simp only [World.descriptors, World.lose, decide_not, List.append_assoc]
  refine List.Perm.append_left _ ?_
  rw [← List.append_assoc]
  exact List.perm_append_comm

theorem Tracked.rmWatch (h : Tracked w) (wd : ℤ) : Tracked (w.rmWatch wd).2 := by
  unfold World.rmWatch
  split_ifs with hmem
  · refine h.of_fewer rfl rfl (fun _ hx => List.mem_of_mem_filter hx) ?_
    have hnodup : (w.watches.map Prod.snd).Nodup := (List.nodup_append.1 h.once).1
    have herase : (w.watches.filter (·.2 ≠ wd)).map Prod.snd = (w.watches.map Prod.snd).erase wd := by
      rw [hnodup.erase_eq_filter, List.filter_map]
      exact congrArg (List.map Prod.snd) (List.filter_congr fun x _ => by simp [bne, beq_eq_decide])
    have hends : (w.removed ++ [wd] ++ w.lost).Perm (wd :: (w.removed ++ w.lost)) := by
      rw [List.append_assoc]
      exact List.perm_middle
    simp only [World.descriptors, herase]
    refine (hends.append_left _).trans (List.perm_middle.trans ?_)
    exact ((List.perm_cons_erase hmem).append_right _).symm
  · exact h

theorem Holds.of_same {blocks blocks' : List ℕ} {w' : World} (h : Holds blocks w) (hperm : blocks.Perm blocks')
    (hheap : w'.heap = w.heap) (hnext : w'.nextBlock = w.nextBlock) (hsound : w'.sound = w.sound) :
    Holds blocks' w' := by
  refine ⟨?_, ?_, ?_, hsound.trans h.sound⟩
  · rw [hheap]
    exact h.heap.trans hperm
  · rw [hheap]
    exact h.nodup
  · rw [hheap, hnext]
    exact h.next

theorem Holds.lose {blocks : List ℕ} (h : Holds blocks w) (gone : List ℕ) : Holds blocks (w.lose gone) :=
  h.of_same (.refl _) rfl rfl rfl

/-- A watch is added to the record of watches, and nothing else changes but the watches. -/
theorem addWatch_spec (w : World) (path : Bytes) (inode : ℕ) :
    (w.addWatch path inode).2.added = w.added ++ [⟨path, inode, (w.addWatch path inode).1⟩] ∧
      (w.addWatch path inode).2 = { w with
        watches := (w.addWatch path inode).2.watches
        lastWd := (w.addWatch path inode).2.lastWd
        added := (w.addWatch path inode).2.added } := by
  unfold World.addWatch
  cases w.watches.find? (·.1 = inode) <;> exact ⟨rfl, rfl⟩

end Invariants

section Initialize

variable {inotifyFd : ℤ} {blocks : List ℕ} {monitors : List Monitored} {w : World}

/-- The monitors are set up, and nothing has been read. -/
structure Ready (inotifyFd : ℤ) (blocks : List ℕ) (monitors : List Monitored) (w : World) : Prop where
  device : w.device = some inotifyFd
  tracked : Tracked w
  holds : Holds (blocks ++ monitors.map Monitored.block) w
  mirrors : Mirrors monitors w
  quiet : w.got = [] ∧ w.logged = []
  unasked : w.asked = [] ∧ w.left = []

/-- One round of the loop over the paths. -/
theorem Ready.add (h : Ready inotifyFd blocks monitors w) (gone : List ℕ) (path : Bytes) (inode : ℕ) :
    Ready inotifyFd blocks
      (monitors ++ [⟨⟨path, ((w.alloc.2.lose gone).addWatch path inode).1⟩, w.nextBlock⟩])
      ((w.alloc.2.lose gone).addWatch path inode).2 := by
  obtain ⟨hadded, hrest⟩ := addWatch_spec (w.alloc.2.lose gone) path inode
  have htracked : Tracked w.alloc.2 := h.tracked.of_fewer rfl rfl (fun _ hx => hx) (.refl _)
  have hholds := h.holds.alloc.lose gone
  refine ⟨?_, (htracked.lose gone).addWatch path inode, ?_, ?_, ?_, ?_⟩
  · rw [hrest]
    exact h.device
  · rw [List.map_append, ← List.append_assoc]
    rw [hrest]
    exact hholds.of_same (.refl _) rfl rfl rfl
  · unfold Mirrors
    rw [hadded, List.map_append, List.map_append, show monitors.map Monitored.monitor = _ from h.mirrors]
    rfl
  · rw [hrest]
    exact h.quiet
  · rw [hrest]
    exact h.unasked

theorem exec_addWatch (turn : Turn) (fd : ℤ) (path : Bytes) (mask : UInt32) (w : World) :
    exec turn (.inotifyAddWatch fd path mask) w = (-1, w.lose turn.gone) ∨
      ∃ inode, exec turn (.inotifyAddWatch fd path mask) w = (w.lose turn.gone).addWatch path inode := by
  simp only [exec, answer]
  split_ifs with h
  · cases turn.names path with
    | none => exact .inl rfl
    | some inode => exact .inr ⟨inode, rfl⟩
  · exact .inl rfl

theorem addMonitors_yields (paths : List Bytes) : ∀ {monitors : List Monitored} {w : World},
    Ready inotifyFd blocks monitors w → (addMonitors inotifyFd paths).Yields exec (fun more w' =>
      more.map (fun m => m.monitor.path) = paths ∧ Ready inotifyFd blocks (monitors ++ more) w') w := by
  induction paths with
  | nil =>
    intro monitors w h
    exact ⟨rfl, by rwa [List.append_nil]⟩
  | cons path paths ih =>
    intro monitors w h turn turn'
    have hlost : Ready inotifyFd blocks monitors (w.lose turn.gone) :=
      ⟨h.device, h.tracked.lose _, h.holds.lose _, h.mirrors, h.quiet, h.unasked⟩
    change (if (exec turn' (.inotifyAddWatch inotifyFd path monTEventMask) (w.lose turn.gone).alloc.2).1 < 0 then .halt
      else addMonitors inotifyFd paths >>= fun more => .ret
        (⟨⟨path, (exec turn' (.inotifyAddWatch inotifyFd path monTEventMask) (w.lose turn.gone).alloc.2).1⟩,
          (w.lose turn.gone).nextBlock⟩ :: more) : WatchProg (List Monitored)).Yields exec _
      (exec turn' (.inotifyAddWatch inotifyFd path monTEventMask) (w.lose turn.gone).alloc.2).2
    rcases exec_addWatch turn' inotifyFd path monTEventMask (w.lose turn.gone).alloc.2 with hfailed | ⟨inode, hadd⟩
    · rw [hfailed, if_pos (by exact Int.negSucc_lt_zero 0)]
      trivial
    rw [hadd]
    split_ifs with hnegative
    · trivial
    have hready := hlost.add turn'.gone path inode
    refine (ih hready).bind fun more w' ⟨hpaths, hmore⟩ => ⟨?_, ?_⟩
    · rw [List.map_cons, hpaths]
    · rwa [List.append_assoc, List.singleton_append] at hmore

theorem Mirrors.attributed (h : Mirrors monitors w) (event : InotifyEvent) :
    attributed w.added event = (monitorOf (monitors.map Monitored.monitor) event).map fun m => (m.path, event) := by
  unfold Watches.attributed monitorOf
  rw [show monitors.map Monitored.monitor = _ from h, List.find?_map, Option.map_map]
  rfl

/-- The events that have been processed, all but the last of those read, have been logged, each under the first
path with its descriptor; the watches with the descriptors in `done` have been removed. -/
structure Running (inotifyFd : ℤ) (blocks : List ℕ) (monitor : Monitor) (rest : List InotifyEvent) (done : List ℤ)
    (w : World) : Prop where
  device : w.device = none ∨ w.device = some inotifyFd
  tracked : Tracked w
  holds : Holds blocks w
  mirrors : Mirrors monitor.registered w
  logged : w.logged ++ rest.filterMap (attributed w.added) = w.got.filterMap (attributed w.added)
  asked : w.asked = done
  removed : ∀ x ∈ w.watches, x.2 ∉ done
  left : w.left = []

/-- A monitor that has been set up: one without a device, or one that watches all the paths. -/
def Watching (inotifyFd : ℤ) (paths : List Bytes) (monitor : Monitor) (w : World) : Prop :=
  monitor.registered = [] ∨
    w.device = some inotifyFd ∧ monitor.registered.map (fun m => m.monitor.path) = paths

theorem mtInitializeInotify_yields (paths : List Bytes) (hint : paths.length < 2 ^ 31) :
    (mtInitializeInotify paths).Yields exec
      (fun r w => Running r.1 r.2.blocks r.2 [] [] w ∧ Watching r.1 paths r.2 w) start := by
  intro turn
  have hinit : exec turn .inotifyInit start = (-1, start) ∨
      exec turn .inotifyInit start = ((turn.fd : ℤ), { start with device := some (turn.fd : ℤ) }) := by
    simp only [exec, answer]
    split_ifs
    · exact .inl rfl
    · exact .inr rfl
  change (if (exec turn .inotifyInit start).1 < 0 then .ret (-1, noMonitor) else
    .call (.malloc paths.length) fun array => addMonitors (exec turn .inotifyInit start).1 paths >>= fun monitors =>
      .ret ((exec turn .inotifyInit start).1, ⟨some array, monitors, Int.bmod paths.length (2 ^ 32)⟩) :
        WatchProg (ℤ × Monitor)).Yields exec _ (exec turn .inotifyInit start).2
  have hstart : Tracked start := ⟨nofun, nofun, nofun, List.nodup_nil, fun wd => by simp [start, World.descriptors]⟩
  rcases hinit with hfailed | hopened
  · rw [hfailed, if_pos (by exact Int.negSucc_lt_zero 0)]
    exact ⟨⟨.inl rfl, hstart, ⟨.refl _, List.nodup_nil, nofun, rfl⟩, rfl, rfl, rfl, nofun, rfl⟩, .inl rfl⟩
  · rw [hopened, if_neg (by exact not_lt.2 (Int.natCast_nonneg _))]
    intro turn'
    have hready : Ready turn.fd [0] [] (exec turn' (.malloc paths.length)
        { start with device := some (turn.fd : ℤ) }).2 := by
      have htracked : Tracked { start with device := some (turn.fd : ℤ) } :=
        hstart.of_fewer rfl rfl (fun _ hx => hx) (.refl _)
      refine ⟨rfl, (htracked.lose turn'.gone).of_fewer rfl rfl (fun _ hx => hx) (.refl _),
        ⟨.refl _, List.nodup_singleton _, ?_, rfl⟩, rfl, ⟨rfl, rfl⟩, rfl, rfl⟩
      intro b hb
      obtain rfl := List.mem_singleton.1 hb
      exact Nat.zero_lt_one
    refine (addMonitors_yields paths hready).bind fun monitors w ⟨hpaths, hmonitors⟩ => ?_
    have hregistered : ∀ array, Monitor.registered ⟨array, monitors, Int.bmod paths.length (2 ^ 32)⟩ = monitors := by
      intro array
      have hall : (Int.bmod paths.length (2 ^ 32)).toNat = paths.length := by
        rw [Int.bmod_eq_of_le (by omega) (by omega)]
        rfl
      have hlength : monitors.length = paths.length := by rw [← hpaths, List.length_map]
      unfold Monitor.registered
      dsimp only
      rw [hall, ← hlength, List.take_length]
    refine ⟨⟨.inr hmonitors.device, hmonitors.tracked, ?_, ?_, ?_, hmonitors.unasked.1, fun x _ => List.not_mem_nil,
      hmonitors.unasked.2⟩, .inr ⟨hmonitors.device, ?_⟩⟩
    · rw [Monitor.blocks, hregistered]
      exact hmonitors.holds
    · rw [hregistered]
      exact hmonitors.mirrors
    · rw [hmonitors.quiet.1, hmonitors.quiet.2]
      rfl
    · rw [hregistered]
      exact hpaths

end Initialize

section Rounds

variable {inotifyFd : ℤ} {blocks : List ℕ} {monitor : Monitor} {rest : List InotifyEvent} {done : List ℤ}
  {paths : List Bytes} {w : World}

theorem Running.lose (h : Running inotifyFd blocks monitor rest done w) (gone : List ℕ) :
    Running inotifyFd blocks monitor rest done (w.lose gone) :=
  ⟨h.device, h.tracked.lose gone, h.holds.lose gone, h.mirrors, h.logged, h.asked,
    fun x hx => h.removed x (List.mem_of_mem_filter hx), h.left⟩

theorem mtEventProcess_yields {event : InotifyEvent} (h : Running inotifyFd blocks monitor (event :: rest) done w) :
    (mtEventProcess monitor event).Yields exec
      (fun _ w' => Running inotifyFd blocks monitor rest done w' ∧ w'.device = w.device) w := by
  have hlogged := h.logged
  rw [List.filterMap_cons, h.mirrors.attributed] at hlogged
  unfold mtEventProcess
  cases hfound : monitorOf (monitor.registered.map Monitored.monitor) event with
  | none =>
    rw [hfound] at hlogged
    exact ⟨⟨h.device, h.tracked, h.holds, h.mirrors, hlogged, h.asked, h.removed, h.left⟩, rfl⟩
  | some found =>
    rw [hfound] at hlogged
    intro turn
    have hlost := h.lose turn.gone
    refine ⟨⟨hlost.device, hlost.tracked.of_fewer rfl rfl (fun _ hx => hx) (.refl _),
      hlost.holds.of_same (.refl _) rfl rfl rfl, hlost.mirrors, ?_, hlost.asked, hlost.removed, hlost.left⟩, rfl⟩
    change (w.logged ++ [(found.path, event)]) ++ _ = _
    rw [List.append_assoc]
    exact hlogged

theorem processEvents_yields (events : List InotifyEvent) : ∀ {w : World},
    Running inotifyFd blocks monitor events done w → (processEvents monitor events).Yields exec
      (fun _ w' => Running inotifyFd blocks monitor [] done w' ∧ w'.device = w.device) w := by
  induction events with
  | nil => exact fun h => ⟨h, rfl⟩
  | cons event events ih =>
    exact fun h => (mtEventProcess_yields h).bind fun _ _ ⟨hrest, hdevice⟩ =>
      (ih hrest).mono fun _ _ ⟨hrunning, hsame⟩ => ⟨hrunning, hsame.trans hdevice⟩

theorem monitorRounds_yields (rounds : ℕ) : ∀ {w : World}, Running inotifyFd blocks monitor [] done w →
    (monitorRounds inotifyFd monitor rounds).Yields exec
      (fun _ w' => Running inotifyFd blocks monitor [] done w' ∧ w'.device = w.device) w := by
  induction rounds with
  | zero => exact fun h => ⟨h, rfl⟩
  | succ rounds ih =>
    intro w h turn
    have hread : Running inotifyFd blocks monitor (exec turn (.readEvents inotifyFd) w).1 done
        (exec turn (.readEvents inotifyFd) w).2 ∧ (exec turn (.readEvents inotifyFd) w).2.device = w.device := by
      have hlost := h.lose turn.gone
      simp only [exec, answer]
      split_ifs
      · refine ⟨⟨hlost.device, hlost.tracked.of_fewer rfl rfl (fun _ hx => hx) (.refl _),
          hlost.holds.of_same (.refl _) rfl rfl rfl, hlost.mirrors, ?_, hlost.asked, hlost.removed, hlost.left⟩, rfl⟩
        dsimp only
        rw [List.filterMap_append, ← hlost.logged]
        simp
      · exact ⟨hlost, rfl⟩
    refine (processEvents_yields _ hread.1).bind fun _ w₁ ⟨hprocessed, hdevice⟩ => ?_
    exact (ih hprocessed).mono fun _ _ ⟨hrunning, hsame⟩ => ⟨hrunning, hsame.trans (hdevice.trans hread.2)⟩

end Rounds

section Shutdown

variable {inotifyFd : ℤ} {blocks : List ℕ} {monitor : Monitor} {done : List ℤ} {paths : List Bytes} {w : World}

/-- The last of the blocks of a list is given back. -/
theorem Holds.free {block : ℕ} (h : Holds (block :: blocks) w) (turn : Turn) :
    Holds blocks (exec turn (.free (some block)) w).2 := by
  have hmem : block ∈ (w.lose turn.gone).heap := h.heap.mem_iff.2 (List.mem_cons_self ..)
  simp only [exec, answer]
  rw [if_pos hmem]
  refine ⟨?_, h.nodup.erase _, fun b hb => h.next b (List.mem_of_mem_erase hb), h.sound⟩
  have hperm := h.heap.erase block
  rwa [List.erase_cons_head] at hperm

theorem Running.free {block : ℕ} (h : Running inotifyFd (block :: blocks) monitor [] done w) (turn : Turn) :
    Running inotifyFd blocks monitor [] done (exec turn (.free (some block)) w).2 ∧
      (exec turn (.free (some block)) w).2.device = w.device := by
  have hlost := h.lose turn.gone
  have hholds := h.holds.free turn
  simp only [exec, answer] at hholds ⊢
  split_ifs at hholds ⊢
  all_goals exact ⟨⟨hlost.device, hlost.tracked.of_fewer rfl rfl (fun _ hx => hx) (.refl _), hholds, hlost.mirrors,
    hlost.logged, hlost.asked, hlost.removed, hlost.left⟩, rfl⟩

theorem rmWatch_spec (w : World) (wd : ℤ) : (w.rmWatch wd).2 = { w with
      watches := w.watches.filter (·.2 ≠ wd)
      removed := (w.rmWatch wd).2.removed } := by
  unfold World.rmWatch
  split_ifs with hmem
  · rfl
  · have hall : w.watches.filter (·.2 ≠ wd) = w.watches := by
      refine List.filter_eq_self.2 fun x hx => ?_
      have hne : x.2 ≠ wd := fun he => hmem (List.mem_map.2 ⟨x, hx, he⟩)
      simpa using hne
    rw [hall]

/-- After the call there is no watch with the descriptor, whether it was there or not. -/
theorem Running.rmWatch (h : Running inotifyFd blocks monitor [] done w) (hdevice : w.device = some inotifyFd) (wd : ℤ)
    (turn : Turn) : Running inotifyFd blocks monitor [] (done ++ [wd]) (exec turn (.inotifyRmWatch inotifyFd wd) w).2 ∧
      (exec turn (.inotifyRmWatch inotifyFd wd) w).2.device = w.device := by
  have hlost := h.lose turn.gone
  obtain ⟨w', hw'⟩ : ∃ w', w' = { w.lose turn.gone with asked := (w.lose turn.gone).asked ++ [wd] } := ⟨_, rfl⟩
  have htracked : Tracked w' := by
    rw [hw']
    exact hlost.tracked.of_fewer rfl rfl (fun _ hx => hx) (.refl _)
  have hexec : (exec turn (.inotifyRmWatch inotifyFd wd) w).2 = (w'.rmWatch wd).2 := by
    simp only [exec, answer, hw']
    rw [if_pos (show (w.lose turn.gone).device = some inotifyFd from hdevice)]
  have hremoved := htracked.rmWatch wd
  rw [hexec]
  rw [rmWatch_spec] at hremoved ⊢
  rw [hw'] at hremoved ⊢
  refine ⟨⟨hlost.device, hremoved, hlost.holds.of_same (.refl _) rfl rfl rfl, hlost.mirrors, hlost.logged, ?_, ?_,
    hlost.left⟩, rfl⟩
  · exact congrArg (· ++ [wd]) hlost.asked
  · intro x hx
    obtain ⟨hx, hne⟩ := List.mem_filter.1 hx
    rw [List.mem_append, List.mem_singleton, not_or]
    exact ⟨hlost.removed x hx, by simpa using hne⟩

theorem freeMonitors_yields (monitors : List Monitored) : ∀ {done : List ℤ} {w : World},
    Running inotifyFd (monitors.map Monitored.block ++ blocks) monitor [] done w →
    (monitors = [] ∨ w.device = some inotifyFd) → (freeMonitors inotifyFd monitors).Yields exec
      (fun _ w' => Running inotifyFd blocks monitor [] (done ++ monitors.map fun m => m.monitor.wd) w') w := by
  induction monitors with
  | nil =>
    intro done w h _
    rwa [List.map_nil, List.append_nil]
  | cons monitored rest ih =>
    intro done w h hdevice turn turn'
    have hdevice := hdevice.resolve_left (List.cons_ne_nil _ _)
    obtain ⟨hfree, hsame⟩ := h.free turn
    obtain ⟨hremoved, hsame'⟩ := hfree.rmWatch (hsame.trans hdevice) monitored.monitor.wd turn'
    have hrest := ih hremoved (.inr (hsame'.trans (hsame.trans hdevice)))
    rwa [List.append_assoc, List.singleton_append] at hrest

/-- What there is when all has been given back. -/
structure Over (paths : List Bytes) (w : World) : Prop where
  device : w.device = none
  heap : w.heap = []
  sound : w.sound = true
  tracked : Tracked w
  paths : w.added = [] ∨ w.added.map Added.path = paths
  asked : w.asked = w.added.map Added.wd
  watches : w.watches = []
  left : w.left = []
  logged : w.logged = w.got.filterMap (attributed w.added)

theorem Running.close (h : Running inotifyFd [] monitor [] (monitor.registered.map fun m => m.monitor.wd) w)
    (hregistered : monitor.registered = [] ∨ monitor.registered.map (fun m => m.monitor.path) = paths) (turn : Turn) :
    Over paths (exec turn (.close inotifyFd) w).2 := by
  have hlost := h.lose turn.gone
  have hlogged := hlost.logged
  rw [List.filterMap_nil, List.append_nil] at hlogged
  have hall : (monitor.registered.map fun m => m.monitor.wd) = (w.lose turn.gone).added.map Added.wd := by
    have hmirrors := congrArg (List.map DirMonitored.wd) hlost.mirrors
    rwa [List.map_map, List.map_map] at hmirrors
  have hpaths : (w.lose turn.gone).added = [] ∨ (w.lose turn.gone).added.map Added.path = paths := by
    have hmirrors : (monitor.registered.map fun m => m.monitor.path) = (w.lose turn.gone).added.map Added.path := by
      have hmirrors := congrArg (List.map DirMonitored.path) hlost.mirrors
      rwa [List.map_map, List.map_map] at hmirrors
    rcases hregistered with hnil | hpaths
    · rw [hnil, List.map_nil] at hmirrors
      exact .inl (List.map_eq_nil_iff.1 hmirrors.symm)
    · exact .inr (hmirrors.symm.trans hpaths)
  -- each watch has been asked for, so each has been removed or lost
  have hnone : (w.lose turn.gone).watches = [] := by
    refine List.eq_nil_iff_forall_not_mem.2 fun x hx => hlost.removed x hx ?_
    obtain ⟨a, ha, -, hwd⟩ := hlost.tracked.live x hx
    rw [hall]
    exact List.mem_map.2 ⟨a, ha, hwd⟩
  have hasked := hlost.asked.trans hall
  simp only [exec, answer]
  split_ifs with hopen
  · refine ⟨rfl, hlost.holds.heap.eq_nil, hlost.holds.sound, ?_, hpaths, hasked, rfl, ?_, hlogged⟩
    · refine hlost.tracked.of_fewer rfl rfl nofun ?_
      simp only [World.descriptors, hnone, List.map_nil, List.nil_append]
      exact .refl _
    · simp only [hlost.left, hnone, List.map_nil, List.append_nil]
  · exact ⟨hlost.device.resolve_right hopen, hlost.holds.heap.eq_nil, hlost.holds.sound, hlost.tracked, hpaths, hasked,
      hnone, hlost.left, hlogged⟩

theorem mtShutdownInotify_yields (h : Running inotifyFd monitor.blocks monitor [] [] w)
    (hwatching : Watching inotifyFd paths monitor w) :
    (mtShutdownInotify inotifyFd monitor).Yields exec (fun _ w' => Over paths w') w := by
  have hfirst : Running inotifyFd (monitor.registered.map Monitored.block ++ monitor.array.toList) monitor [] [] w :=
    ⟨h.device, h.tracked, h.holds.of_same List.perm_append_comm rfl rfl rfl, h.mirrors, h.logged, h.asked, h.removed,
      h.left⟩
  refine (freeMonitors_yields _ hfirst (hwatching.imp_right And.left)).bind fun _ w₁ h₁ turn => ?_
  have hfree : Running inotifyFd [] monitor [] (monitor.registered.map fun m => m.monitor.wd)
      (exec turn (.free monitor.array) w₁).2 := by
    cases harray : monitor.array with
    | none =>
      rw [harray] at h₁
      exact h₁.lose turn.gone
    | some block =>
      rw [harray] at h₁
      exact (h₁.free turn).1
  exact fun turn' => hfree.close (hwatching.imp_right And.right) turn'

/-- The first path that was given a descriptor led to the directory that the descriptor stands for. -/
theorem Tracked.attributed (h : Tracked w) {a : Added} (ha : a ∈ w.added) : ∃ b ∈ w.added, b.inode = a.inode ∧
    ∀ event, event.wd = a.wd → attributed w.added event = some (b.path, event) := by
  obtain ⟨b, hfind⟩ : ∃ b, (w.added.find? fun b => b.wd = a.wd) = some b := by
    cases hfind : w.added.find? fun b => b.wd = a.wd with
    | some b => exact ⟨b, rfl⟩
    | none => exact absurd (List.find?_eq_none.1 hfind a ha) (by simp)
  have hb := List.mem_of_find?_eq_some hfind
  have hwd : b.wd = a.wd := by simpa using List.find?_some hfind
  refine ⟨b, hb, h.functional b hb a ha hwd, fun event hevent => ?_⟩
  unfold Watches.attributed
  rw [hevent, hfind]
  rfl

def creation (wd : ℤ) : InotifyEvent := ⟨wd, 0x100, 16, bytes "a"⟩

/-- Two of three paths lead to one directory; files are created, and in the end the other directory is gone. -/
def turns (t : ℕ) : Turn where
  gone := if t < 9 then [] else [8]
  names path := if path = bytes "/tmp" then some 8 else some 7
  fails := false
  fd := 5
  events := [creation 2, creation 1, creation 1]

end Shutdown

end Reportman.Watches
