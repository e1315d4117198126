import Mathlib.Data.List.DropRight
import Mathlib.Data.List.Perm.Basic
import Mathlib.Data.List.Nodup
import Mathlib.Data.List.Induction

/-!
# Window cycling (lib/htk/window.hc)

Raising a window changes the list that the next call of `HtkWindowCycle` walks. A call
brings its target to the top unless an always-on-top window stays above it, and the
target of a call backwards is the window that the call before has covered.
-/

namespace Aholyc.Htk

abbrev WindowId := Nat

/-- The list `htk_windows`, the lowest window first, and the fields of the windows. There is no
modal dialog. -/
structure Desktop where
  windows : List WindowId
  minimized : WindowId → Bool
  alwaysOnTop : WindowId → Bool
  /-- A window has one sibling pointer. -/
  distinct : windows.Nodup

namespace Desktop

variable (d : Desktop)

/-! ## The source -/

def topLoop (top : Option WindowId) : List WindowId → Option WindowId
  | [] => top
  | w :: ws => topLoop (if d.minimized w then top else some w) ws

def htkTop : Option WindowId := topLoop d none d.windows

/-- The list with the window below the first one that is always on top. -/
def insertBelow (w : WindowId) (ws : List WindowId) : List WindowId :=
  ws.takeWhile (fun v => !d.alwaysOnTop v) ++ w :: ws.dropWhile (fun v => !d.alwaysOnTop v)

theorem insertBelow_perm (w : WindowId) (ws : List WindowId) :
    (d.insertBelow w ws).Perm (w :: ws) := by
  unfold insertBelow
  apply List.perm_middle.trans
  rw [List.takeWhile_append_dropWhile]

def raisedList (w : WindowId) : List WindowId :=
  if d.alwaysOnTop w then d.windows.erase w ++ [w] else d.insertBelow w (d.windows.erase w)

variable {w : WindowId} {direction : Int}

theorem raisedList_perm (member : w ∈ d.windows) : (d.raisedList w).Perm d.windows := by
  have together := (List.perm_cons_erase member).symm
  unfold raisedList
  split
  · exact (List.perm_append_singleton w _).trans together
  · exact (d.insertBelow_perm w _).trans together

def htkWindowRaise (w : WindowId) (member : w ∈ d.windows) : Desktop :=
  { d with
    windows := d.raisedList w
    distinct := (d.raisedList_perm member).nodup_iff.mpr d.distinct }

structure Scan where
  first : Option WindowId
  last : Option WindowId
  prev : Option WindowId
  next : Option WindowId

def Scan.visit (top : Option WindowId) (scan : Scan) (w : WindowId) : Scan where
  first := if scan.first = none then some w else scan.first
  prev := if some w = top then scan.last else scan.prev
  next := if some w ≠ top ∧ scan.last = top then some w else scan.next
  last := some w

def scanLoop (top : Option WindowId) (scan : Scan) : List WindowId → Scan
  | [] => scan
  | w :: ws => scanLoop top (if d.minimized w then scan else scan.visit top w) ws

def cycleTarget (direction : Int) : Option WindowId :=
  let scan := d.scanLoop d.htkTop ⟨none, none, none, none⟩ d.windows
  if direction < 0 then scan.prev.or scan.last else scan.next.or scan.first

def htkWindowCycle (direction : Int) : Desktop :=
  match d.cycleTarget direction with
  | none => d
  | some w => if member : w ∈ d.windows then d.htkWindowRaise w member else d

def cycleTimes (direction : Int) : Nat → Desktop → Desktop
  | 0, d => d
  | n + 1, d => cycleTimes direction n (d.htkWindowCycle direction)

def tops (direction : Int) : Nat → Desktop → List (Option WindowId)
  | 0, _ => []
  | n + 1, d => (d.htkWindowCycle direction).htkTop :: tops direction n (d.htkWindowCycle direction)

def visible : List WindowId := d.windows.filter fun w => !d.minimized w

/-- As many calls as there are visible windows make each of them the top one once, and the last
call the one that it was. -/
def Cycles (direction : Int) : Prop :=
  (tops direction d.visible.length d).Perm (d.visible.map some) ∧
    (cycleTimes direction d.visible.length d).htkTop = d.htkTop

/-- All visible windows are always on top, or all lie below the first one that is. -/
def Level : Prop :=
  (∀ w ∈ d.visible, d.alwaysOnTop w = true) ∨
    ∀ w ∈ d.windows.dropWhile fun v => !d.alwaysOnTop v, d.minimized w = true

/-! ## One call -/

theorem topLoop_eq (top : Option WindowId) (ws : List WindowId) :
    d.topLoop top ws = ((ws.filter fun w => !d.minimized w).getLast?).or top := by
  induction ws generalizing top with
  | nil => rfl
  | cons w ws ih =>
    rw [topLoop, ih]
    by_cases isMinimized : d.minimized w = true
    · rw [if_pos isMinimized, List.filter_cons_of_neg (by rw [isMinimized]; decide)]
    · rw [if_neg isMinimized, List.filter_cons_of_pos (by simpa using isMinimized),
        List.getLast?_cons]
      cases (ws.filter fun w => !d.minimized w).getLast? with
      | none => rfl
      | some v => rfl

theorem htkTop_eq : d.htkTop = d.visible.getLast? := by
  unfold htkTop
  rw [topLoop_eq, Option.or_none]
  rfl

theorem visible_nodup : d.visible.Nodup := d.distinct.filter _

theorem mem_visible : w ∈ d.visible ↔ w ∈ d.windows ∧ d.minimized w = false := by
  unfold visible
  rw [List.mem_filter, Bool.not_eq_true']

theorem scanLoop_eq (top : Option WindowId) (scan : Scan) (ws : List WindowId) :
    d.scanLoop top scan ws =
      (ws.filter fun w => !d.minimized w).foldl (Scan.visit top) scan := by
  induction ws generalizing scan with
  | nil => rfl
  | cons w ws ih =>
    rw [scanLoop, ih]
    by_cases isMinimized : d.minimized w = true
    · rw [if_pos isMinimized, List.filter_cons_of_neg (by rw [isMinimized]; decide)]
    · rw [if_neg isMinimized, List.filter_cons_of_pos (by simpa using isMinimized),
        List.foldl_cons]

/-- Below the top window the loop finds no neighbour of it. -/
theorem scan_below {top : WindowId} (ws : List WindowId) (scan : Scan)
    (none_yet : scan.last ≠ some top) (without : top ∉ ws) :
    ws.foldl (Scan.visit (some top)) scan =
      ⟨scan.first.or ws.head?, ws.getLast?.or scan.last, scan.prev, scan.next⟩ := by
  induction ws generalizing scan with
  | nil =>
    cases scan with
    | mk first last prev next =>
      rw [List.foldl_nil, List.head?_nil, Option.or_none]
      rfl
  | cons w ws ih =>
    rw [List.mem_cons, not_or] at without
    have notTop : some w ≠ some top := fun same => without.1 (Option.some.inj same).symm
    have notNext : ¬ (some w ≠ some top ∧ scan.last = some top) := fun both => none_yet both.2
    rw [List.foldl_cons, ih _ notTop without.2]
    unfold Scan.visit
    dsimp only
    rw [if_neg notTop, if_neg notNext, List.getLast?_cons, List.head?_cons]
    cases scan.first with
    | none =>
      cases ws.getLast? with
      | none => rfl
      | some v => rfl
    | some u =>
      cases ws.getLast? with
      | none => rfl
      | some v => rfl

/-- The target forwards is the lowest visible window, backwards the one below the top. -/
theorem cycleTarget_eq (direction : Int) : d.cycleTarget direction =
    if direction < 0 then d.visible.dropLast.getLast?.or d.visible.getLast?
    else d.visible.head? := by
  have nodup := d.visible_nodup
  unfold cycleTarget
  rw [scanLoop_eq, htkTop_eq]
  change (let scan := d.visible.foldl (Scan.visit d.visible.getLast?) ⟨none, none, none, none⟩
    if direction < 0 then scan.prev.or scan.last else scan.next.or scan.first) = _
  generalize d.visible = ws at nodup
  induction ws using List.reverseRecOn with
  | nil => rfl
  | append_singleton ws top _ =>
    have without : top ∉ ws := by
      intro member
      exact (List.nodup_append.mp nodup).2.2 top member top List.mem_cons_self rfl
    rw [List.getLast?_concat, List.foldl_append, scan_below ws _ (fun no => by cases no)
      without, List.dropLast_concat]
    have notNext : ¬ (some top ≠ some top ∧ ws.getLast? = some top) := fun both => both.1 rfl
    dsimp only [List.foldl_cons, List.foldl_nil, Scan.visit]
    rw [if_pos rfl, Option.none_or, Option.or_none, if_neg notNext, Option.none_or]
    cases ws with
    | nil => rfl
    | cons w ws => rfl

def Rises (w : WindowId) : Prop :=
  d.alwaysOnTop w = true ∨
    ∀ v ∈ (d.windows.erase w).dropWhile fun v => !d.alwaysOnTop v, d.minimized v = true

variable {d : Desktop}

variable (d) in
/-- The other visible windows: those below the first one that is always on top, and the others. -/
theorem visible_erase (w : WindowId) : d.visible.erase w =
    ((d.windows.erase w).takeWhile fun v => !d.alwaysOnTop v).filter (fun v => !d.minimized v) ++
      ((d.windows.erase w).dropWhile fun v => !d.alwaysOnTop v).filter fun v => !d.minimized v := by
  rw [← List.filter_append, List.takeWhile_append_dropWhile]
  unfold visible
  rw [d.distinct.erase_eq_filter, (d.distinct.filter _).erase_eq_filter, List.filter_comm]

theorem raise_visible (isVisible : d.minimized w = false) (inList : w ∈ d.windows) :
    (d.htkWindowRaise w inList).visible =
      if d.alwaysOnTop w then d.visible.erase w ++ [w]
      else ((d.windows.erase w).takeWhile fun v => !d.alwaysOnTop v).filter
          (fun v => !d.minimized v) ++
        w :: ((d.windows.erase w).dropWhile fun v => !d.alwaysOnTop v).filter
          fun v => !d.minimized v := by
  have single (ws : List WindowId) : (w :: ws).filter (fun v => !d.minimized v) =
      w :: ws.filter fun v => !d.minimized v :=
    List.filter_cons_of_pos (by rw [isVisible]; rfl)
  change (d.raisedList w).filter (fun v => !d.minimized v) = _
  unfold raisedList insertBelow
  split
  · rw [List.filter_append, single, List.filter_nil, visible_erase, ← List.filter_append,
      List.takeWhile_append_dropWhile]
  · rw [List.filter_append, single]

theorem visible_raise_rises (isVisible : d.minimized w = false) (rises : d.Rises w)
    (inList : w ∈ d.windows) : (d.htkWindowRaise w inList).visible = d.visible.erase w ++ [w] := by
  rw [raise_visible isVisible]
  cases rises with
  | inl onTop => rw [if_pos onTop]
  | inr above =>
    have noneAbove : ((d.windows.erase w).dropWhile fun v => !d.alwaysOnTop v).filter
        (fun v => !d.minimized v) = [] := by
      rw [List.filter_eq_nil_iff]
      intro v inRest
      rw [above v inRest]
      decide
    split
    · rfl
    · rw [visible_erase, noneAbove, List.append_nil]

/-- Otherwise the top window is the one that was, or was below it. -/
theorem top_raise_not_rises (isVisible : d.minimized w = false) (rises : ¬ d.Rises w)
    (inList : w ∈ d.windows) :
    (d.htkWindowRaise w inList).htkTop = (d.visible.erase w).getLast? := by
  unfold Rises at rises
  rw [not_or] at rises
  have someAbove : ((d.windows.erase w).dropWhile fun v => !d.alwaysOnTop v).filter
      (fun v => !d.minimized v) ≠ [] := by
    intro none
    apply rises.2
    intro v inRest
    have no := List.filter_eq_nil_iff.mp none v inRest
    simpa using no
  rw [htkTop_eq, raise_visible isVisible, if_neg rises.1, visible_erase,
    List.getLast?_append_of_ne_nil _ someAbove, List.append_cons,
    List.getLast?_append_of_ne_nil _ someAbove]

/-! ## Any number of calls -/

theorem htkWindowCycle_eq (isTarget : d.cycleTarget direction = some w) (inList : w ∈ d.windows) :
    d.htkWindowCycle direction = d.htkWindowRaise w inList := by
  unfold htkWindowCycle
  rw [isTarget]
  exact dif_pos inList

/-- The windows that are always on top, or minimized, do not change. -/
theorem htkWindowCycle_fields (direction : Int) :
    (d.htkWindowCycle direction).alwaysOnTop = d.alwaysOnTop ∧
      (d.htkWindowCycle direction).minimized = d.minimized := by
  unfold htkWindowCycle
  split
  · exact ⟨rfl, rfl⟩
  · split
    · exact ⟨rfl, rfl⟩
    · exact ⟨rfl, rfl⟩

/-- A call forwards that brings the lowest window to the top. -/
theorem cycle_forwards (forwards : 0 ≤ direction) {ws : List WindowId}
    (isVisible : d.visible = w :: ws) (rises : d.Rises w) :
    (d.htkWindowCycle direction).visible = ws ++ [w] ∧
      (d.htkWindowCycle direction).htkTop = some w := by
  have member := d.mem_visible.mp (isVisible ▸ List.mem_cons_self)
  have isTarget : d.cycleTarget direction = some w := by
    rw [cycleTarget_eq, if_neg (Int.not_lt.mpr forwards), isVisible]
    rfl
  have raised := visible_raise_rises member.2 rises member.1
  rw [isVisible, List.erase_cons_head] at raised
  rw [htkTop_eq, htkWindowCycle_eq isTarget member.1, raised, List.getLast?_concat]
  exact ⟨rfl, rfl⟩

/-- Windows below the first one that is always on top. -/
theorem dropWhile_below {below : List WindowId} (all : ∀ v ∈ below, d.alwaysOnTop v = false) :
    (below ++ d.windows.dropWhile fun v => !d.alwaysOnTop v).dropWhile
        (fun v => !d.alwaysOnTop v) =
      d.windows.dropWhile fun v => !d.alwaysOnTop v := by
  have pass : ∀ v ∈ below, (!d.alwaysOnTop v) = true := by
    intro v member
    rw [all v member]
    rfl
  rw [List.dropWhile_append_of_pos pass, List.dropWhile_idempotent]

/-- Where all visible windows lie below the others, the list without one of them. -/
theorem erase_below (isVisible : w ∈ d.visible)
    (above : ∀ v ∈ d.windows.dropWhile fun v => !d.alwaysOnTop v, d.minimized v = true) :
    ∃ below, d.windows.erase w = below ++ d.windows.dropWhile (fun v => !d.alwaysOnTop v) ∧
      (∀ v ∈ below, d.alwaysOnTop v = false) ∧ d.alwaysOnTop w = false := by
  have member := d.mem_visible.mp isVisible
  have notAbove : w ∉ d.windows.dropWhile fun v => !d.alwaysOnTop v := by
    intro inRest
    rw [above w inRest] at member
    exact Bool.noConfusion member.2
  have isBelow : w ∈ d.windows.takeWhile fun v => !d.alwaysOnTop v := by
    have inList := member.1
    rw [← @List.takeWhile_append_dropWhile _ (fun v => !d.alwaysOnTop v) d.windows,
      List.mem_append] at inList
    exact inList.resolve_right notAbove
  have low {v : WindowId} (inBelow : v ∈ d.windows.takeWhile fun v => !d.alwaysOnTop v) :
      d.alwaysOnTop v = false := by
    simpa using List.mem_takeWhile_imp inBelow
  refine ⟨(d.windows.takeWhile fun v => !d.alwaysOnTop v).erase w, ?_, ?_, low isBelow⟩
  · rw [← List.erase_append_left _ isBelow, List.takeWhile_append_dropWhile]
  · intro v inBelow
    exact low (List.mem_of_mem_erase inBelow)

theorem Level.rises (level : d.Level) (isVisible : w ∈ d.visible) : d.Rises w := by
  cases level with
  | inl allOnTop => exact Or.inl (allOnTop w isVisible)
  | inr above =>
    obtain ⟨below, isErased, low, _⟩ := erase_below isVisible above
    right
    rw [isErased, dropWhile_below low]
    exact above

theorem Level.raise (level : d.Level) (isVisible : w ∈ d.visible) (inList : w ∈ d.windows) :
    (d.htkWindowRaise w inList).Level := by
  cases level with
  | inl allOnTop =>
    left
    intro v inRaised
    have member := (mem_visible _).mp inRaised
    apply allOnTop v
    exact d.mem_visible.mpr ⟨(d.raisedList_perm inList).mem_iff.mp member.1, member.2⟩
  | inr above =>
    obtain ⟨below, isErased, low, notTop⟩ := erase_below isVisible above
    have isList : d.raisedList w =
        below ++ [w] ++ d.windows.dropWhile (fun v => !d.alwaysOnTop v) := by
      have allLow : ∀ v ∈ below, (!d.alwaysOnTop v) = true := by
        intro v member
        rw [low v member]
        rfl
      unfold raisedList insertBelow
      rw [if_neg (by rw [notTop]; exact Bool.false_ne_true), isErased, dropWhile_below low,
        List.takeWhile_append_of_pos allLow]
      have none : (d.windows.dropWhile fun v => !d.alwaysOnTop v).takeWhile
          (fun v => !d.alwaysOnTop v) = [] := by
        rw [List.takeWhile_eq_nil_iff]
        intro notEmpty
        exact List.dropWhile_get_zero_not _ _ notEmpty
      rw [none, List.append_nil, List.append_assoc, List.singleton_append]
    right
    change ∀ v ∈ (d.raisedList w).dropWhile fun v => !d.alwaysOnTop v, d.minimized v = true
    rw [isList, dropWhile_below]
    · exact above
    · intro v member
      rw [List.mem_append, List.mem_singleton] at member
      cases member with
      | inl inBelow => exact low v inBelow
      | inr same => rw [same, notTop]

/-- The lowest windows come to the top one after the other. -/
theorem forwards_run (forwards : 0 ≤ direction) (ws : List WindowId) {d : Desktop}
    {rest : List WindowId} (either : (∀ w ∈ ws, d.alwaysOnTop w = true) ∨ d.Level)
    (isVisible : d.visible = ws ++ rest) :
    tops direction ws.length d = ws.map some ∧
      (cycleTimes direction ws.length d).visible = rest ++ ws := by
  induction ws generalizing d rest with
  | nil =>
    rw [List.append_nil]
    exact ⟨rfl, isVisible⟩
  | cons w ws ih =>
    have member : w ∈ d.visible := isVisible ▸ List.mem_cons_self
    have inList := (d.mem_visible.mp member).1
    have rises : d.Rises w := by
      cases either with
      | inl allOnTop => exact Or.inl (allOnTop w List.mem_cons_self)
      | inr level => exact level.rises member
    have called := cycle_forwards forwards isVisible rises
    have isTarget : d.cycleTarget direction = some w := by
      rw [cycleTarget_eq, if_neg (Int.not_lt.mpr forwards), isVisible]
      rfl
    have still : (∀ v ∈ ws, (d.htkWindowCycle direction).alwaysOnTop v = true) ∨
        (d.htkWindowCycle direction).Level := by
      cases either with
      | inl allOnTop =>
        left
        rw [(htkWindowCycle_fields direction).1]
        exact fun v inRest => allOnTop v (List.mem_cons_of_mem w inRest)
      | inr level =>
        right
        rw [htkWindowCycle_eq isTarget inList]
        exact level.raise member inList
    have later := ih still (called.1.trans (List.append_assoc ws rest [w]))
    rw [List.length_cons, tops, cycleTimes, later.1, called.2, later.2, List.append_assoc,
      List.singleton_append]
    exact ⟨rfl, rfl⟩

variable (d) in
theorem visible_cycle_length (direction : Int) :
    (d.htkWindowCycle direction).visible.length = d.visible.length := by
  unfold htkWindowCycle
  split
  · rfl
  · split
    · next inList => exact ((d.raisedList_perm inList).filter _).length_eq
    · rfl

theorem cycles_congr {n : Nat}
    (same : ∀ d : Desktop, d.visible.length = n → d.cycleTarget direction = d.cycleTarget 0)
    (count : Nat) (isLength : d.visible.length = n) :
    cycleTimes direction count d = cycleTimes 0 count d ∧
      tops direction count d = tops 0 count d := by
  induction count generalizing d with
  | zero => exact ⟨rfl, rfl⟩
  | succ count ih =>
    have once : d.htkWindowCycle direction = d.htkWindowCycle 0 := by
      unfold htkWindowCycle
      rw [same d isLength]
    have later := ih ((d.visible_cycle_length 0).trans isLength)
    rw [cycleTimes, cycleTimes, tops, tops, once, later.1, later.2]
    exact ⟨rfl, rfl⟩

/-- Forwards, and with two visible windows, the direction does not matter. -/
theorem cycles_zero (either : 0 ≤ direction ∨ d.visible.length = 2) :
    d.Cycles direction ↔ d.Cycles 0 := by
  have same : ∀ d' : Desktop, d'.visible.length = d.visible.length →
      d'.cycleTarget direction = d'.cycleTarget 0 := by
    intro d' isLength
    rw [cycleTarget_eq, cycleTarget_eq, if_neg (Int.lt_irrefl 0)]
    cases either with
    | inl forwards => rw [if_neg (Int.not_lt.mpr forwards)]
    | inr two =>
      obtain ⟨v, w, isVisible⟩ := List.length_eq_two.mp (isLength.trans two)
      rw [isVisible]
      split
      · rfl
      · rfl
  unfold Cycles
  rw [(cycles_congr same _ rfl).1, (cycles_congr same _ rfl).2]

theorem tops_eq (direction : Int) (n : Nat) (d : Desktop) :
    tops direction n d = (List.range n).map fun i => (cycleTimes direction (i + 1) d).htkTop := by
  induction n generalizing d with
  | zero => rfl
  | succ n ih =>
    rw [tops, ih, List.range_succ_eq_map, List.map_cons, List.map_map]
    rfl

/-- The windows on top differ, but for the first one and the last one. -/
theorem Cycles.distinct (cycles : d.Cycles direction) {i j : Nat} (less : i < j)
    (inside : j ≤ d.visible.length)
    (same : (cycleTimes direction i d).htkTop = (cycleTimes direction j d).htkTop) :
    i = 0 ∧ j = d.visible.length := by
  have nodup : (tops direction d.visible.length d).Nodup :=
    cycles.1.nodup_iff.mpr (d.visible_nodup.map (fun _ _ same => Option.some.inj same))
  rw [tops_eq] at nodup
  have apart {k l : Nat} (kInside : k < d.visible.length) (lInside : l < d.visible.length)
      (equal : (cycleTimes direction (k + 1) d).htkTop =
        (cycleTimes direction (l + 1) d).htkTop) : k = l :=
    List.inj_on_of_nodup_map nodup (List.mem_range.mpr kInside) (List.mem_range.mpr lInside) equal
  obtain ⟨j, rfl⟩ := Nat.exists_eq_add_one.mpr (Nat.zero_lt_of_lt less)
  cases i with
  | zero =>
    obtain ⟨n, isLength⟩ := Nat.exists_eq_add_one.mpr (Nat.zero_lt_of_lt inside)
    have last := cycles.2
    rw [isLength] at last
    have isLast := apart (l := n) inside (by omega) (same.symm.trans last.symm)
    exact ⟨rfl, by omega⟩
  | succ i =>
    have no := apart (by omega) inside same
    omega

theorem covered_of_not_rises (isTarget : d.cycleTarget direction = some w)
    (isVisible : w ∈ d.visible) (rises : ¬ d.Rises w) :
    (d.htkWindowCycle direction).htkTop = (d.visible.erase w).getLast? := by
  have member := d.mem_visible.mp isVisible
  rw [htkWindowCycle_eq isTarget member.1]
  exact top_raise_not_rises member.2 rises member.1

theorem cycleTimes_succ (direction : Int) (n : Nat) (d : Desktop) :
    cycleTimes direction (n + 1) d = (cycleTimes direction n d).htkWindowCycle direction := by
  induction n generalizing d with
  | zero => rfl
  | succ n ih =>
    rw [cycleTimes, ih]
    rfl

theorem cycleTimes_fields (direction : Int) (n : Nat) (d : Desktop) :
    (cycleTimes direction n d).alwaysOnTop = d.alwaysOnTop := by
  induction n generalizing d with
  | zero => rfl
  | succ n ih => rw [cycleTimes, ih, (htkWindowCycle_fields direction).1]

/-- Behind windows that are always on top, the next one to be raised rises. -/
theorem Cycles.rises (cycles : d.Cycles 0) {xs ys : List WindowId} {y : WindowId}
    (isVisible : d.visible = xs ++ y :: ys) (several : 2 ≤ d.visible.length)
    (onTop : ∀ x ∈ xs, d.alwaysOnTop x = true) : (cycleTimes 0 xs.length d).Rises y := by
  have run := forwards_run (Int.le_refl 0) xs (Or.inl onTop) isVisible
  have inside : xs.length + 1 ≤ d.visible.length := by
    rw [isVisible, List.length_append, List.length_cons]
    omega
  by_contra rises
  have isTarget : (cycleTimes 0 xs.length d).cycleTarget 0 = some y := by
    rw [cycleTarget_eq, if_neg (Int.lt_irrefl 0), run.2]
    rfl
  have member : y ∈ (cycleTimes 0 xs.length d).visible := run.2 ▸ List.mem_cons_self
  have covered := covered_of_not_rises isTarget member rises
  rw [← cycleTimes_succ, run.2, List.cons_append, List.erase_cons_head] at covered
  have others : ys ++ xs ≠ [] := by
    intro none
    have count := congrArg List.length none
    rw [isVisible, List.length_append, List.length_cons] at several
    rw [List.length_append, List.length_nil] at count
    omega
  have same : (cycleTimes 0 xs.length d).htkTop = (cycleTimes 0 (xs.length + 1) d).htkTop := by
    rw [covered, htkTop_eq, run.2, List.cons_append, ← List.singleton_append,
      List.getLast?_append_of_ne_nil _ others]
  have ends := cycles.distinct (Nat.lt_succ_self _) inside same
  omega

/-- The lowest visible window rises only if the others lie below all that are always on top. -/
theorem above_of_rises {y : WindowId} {ys : List WindowId} (isVisible : d.visible = y :: ys)
    (several : ys ≠ []) (notTop : d.alwaysOnTop y = false) (rises : d.Rises y) :
    ∀ v ∈ d.windows.dropWhile fun v => !d.alwaysOnTop v, d.minimized v = true := by
  have above := rises.resolve_left (by rw [notTop]; exact Bool.false_ne_true)
  have isSplit := @List.takeWhile_append_dropWhile _ (fun v => !d.alwaysOnTop v) d.windows
  generalize isLow : d.windows.takeWhile (fun v => !d.alwaysOnTop v) = low at isSplit
  generalize isHigh : d.windows.dropWhile (fun v => !d.alwaysOnTop v) = high at isSplit
  have allLow : ∀ v ∈ low, (!d.alwaysOnTop v) = true := by
    intro v member
    rw [← isLow] at member
    have passes := List.mem_takeWhile_imp member
    exact passes
  -- no window but `y` is visible among the high ones
  have others : ∀ v ∈ high, v ≠ y → d.minimized v = true := by
    intro v inHigh other
    apply above v
    by_cases inLow : y ∈ low
    · have allLow' : ∀ u ∈ low.erase y, (!d.alwaysOnTop u) = true :=
        fun u member => allLow u (List.mem_of_mem_erase member)
      rw [← isSplit, List.erase_append_left _ inLow, List.dropWhile_append_of_pos allLow', ← isHigh,
        List.dropWhile_idempotent, isHigh]
      exact inHigh
    · rw [← isSplit, List.erase_append_right _ inLow, List.dropWhile_append_of_pos allLow]
      cases high with
      | nil => cases inHigh
      | cons a high =>
        have first := List.head?_dropWhile_not (fun v => !d.alwaysOnTop v) d.windows
        rw [isHigh] at first
        have aOnTop : d.alwaysOnTop a = true := by simpa using first
        have notY : a ≠ y := by
          intro same
          rw [same, notTop] at aOnTop
          exact Bool.noConfusion aOnTop
        rw [List.erase_cons_tail (by simpa using notY),
          List.dropWhile_cons_of_neg (by rw [aOnTop]; decide)]
        rw [List.mem_cons] at inHigh ⊢
        exact inHigh.imp_right fun member => (List.mem_erase_of_ne other).mpr member
  intro v inHigh
  by_cases isY : v = y
  · -- all visible windows would be high ones
    subst isY
    have shown := congrArg (List.filter fun v => !d.minimized v) isSplit
    change _ = d.visible at shown
    rw [List.filter_append, isVisible] at shown
    have nodup := d.distinct
    rw [← isSplit] at nodup
    cases isShown : low.filter fun v => !d.minimized v with
    | cons u us =>
      rw [isShown, List.cons_append, List.cons.injEq] at shown
      have inLow : u ∈ low := (List.mem_filter.mp (isShown ▸ List.mem_cons_self)).1
      rw [shown.1] at inLow
      exact absurd rfl ((List.nodup_append.mp nodup).2.2 v inLow v inHigh)
    | nil =>
      rw [isShown, List.nil_append] at shown
      cases ys with
      | nil => exact absurd rfl several
      | cons u us =>
        have inShown : u ∈ high.filter fun v => !d.minimized v := by
          rw [shown]
          exact List.mem_cons_of_mem _ List.mem_cons_self
        have unlike : u ≠ v := by
          intro same
          have distinct := d.visible_nodup
          rw [isVisible, same, List.nodup_cons] at distinct
          exact distinct.1 List.mem_cons_self
        have member := List.mem_filter.mp inShown
        rw [others u member.1 unlike] at member
        exact absurd member.2 (by decide)
  · exact others v inHigh isY

/-- Forwards, no window may stay above one that is raised. -/
theorem Cycles.level (cycles : d.Cycles 0) (several : 2 ≤ d.visible.length) : d.Level := by
  have isSplit := @List.takeWhile_append_dropWhile _ d.alwaysOnTop d.visible
  generalize isOnTop : d.visible.takeWhile d.alwaysOnTop = xs at isSplit
  have onTop : ∀ x ∈ xs, d.alwaysOnTop x = true := by
    intro x member
    rw [← isOnTop] at member
    exact List.mem_takeWhile_imp member
  cases isRest : d.visible.dropWhile d.alwaysOnTop with
  | nil =>
    left
    rw [isRest, List.append_nil] at isSplit
    rw [← isSplit]
    exact onTop
  | cons y ys =>
    rw [isRest] at isSplit
    have notTop : d.alwaysOnTop y = false := by
      have no := List.head?_dropWhile_not d.alwaysOnTop d.visible
      rw [isRest] at no
      simpa using no
    have rises := cycles.rises isSplit.symm several onTop
    cases xs with
    | nil =>
      right
      apply above_of_rises isSplit.symm _ notTop rises
      intro none
      rw [none] at isSplit
      rw [← isSplit] at several
      simp at several
    | cons x xs =>
      -- the window that has been raised is always on top
      have run := forwards_run (Int.le_refl 0) (x :: xs) (Or.inl onTop) isSplit.symm
      generalize isLater : cycleTimes 0 (x :: xs).length d = d' at rises run
      have fields : d'.alwaysOnTop = d.alwaysOnTop := by
        rw [← isLater, cycleTimes_fields]
      have above := rises.resolve_left (by rw [fields, notTop]; exact Bool.false_ne_true)
      have isVisible : x ∈ d'.visible := by
        rw [run.2]
        exact List.mem_append_right _ List.mem_cons_self
      have member := d'.mem_visible.mp isVisible
      have xOnTop := onTop x List.mem_cons_self
      have notY : x ≠ y := by
        intro same
        rw [same, notTop] at xOnTop
        exact Bool.noConfusion xOnTop
      have inErased : x ∈ d'.windows.erase y := (List.mem_erase_of_ne notY).mpr member.1
      rw [← @List.takeWhile_append_dropWhile _ (fun v => !d'.alwaysOnTop v)
        (d'.windows.erase y), List.mem_append] at inErased
      cases inErased with
      | inl low =>
        have no := List.mem_takeWhile_imp low
        rw [fields, xOnTop] at no
        cases no
      | inr high =>
        rw [above x high] at member
        exact Bool.noConfusion member.2

/-- Backwards, the second call takes back what the first one has done. -/
theorem Cycles.two (backwards : direction < 0) (cycles : d.Cycles direction)
    (several : 2 ≤ d.visible.length) : d.visible.length = 2 := by
  obtain ⟨vs, top, isConcat⟩ := (List.eq_nil_or_concat d.visible).resolve_left
    (List.ne_nil_of_length_pos (by omega))
  rw [List.concat_eq_append] at isConcat
  obtain ⟨us, t, isConcat'⟩ := (List.eq_nil_or_concat vs).resolve_left (by
    intro none
    rw [isConcat, none] at several
    simp at several)
  rw [List.concat_eq_append] at isConcat'
  have isVisible : d.visible = us ++ [t] ++ [top] := by rw [isConcat, isConcat']
  have nodup := d.visible_nodup
  rw [isVisible] at nodup
  have notLow : t ∉ us := by
    intro member
    have low := (List.nodup_append.mp (List.nodup_append.mp nodup).1).2.2
    exact low t member t List.mem_cons_self rfl
  have topApart : top ∉ us ++ [t] := by
    intro member
    exact (List.nodup_append.mp nodup).2.2 top member top List.mem_cons_self rfl
  have isErased : d.visible.erase t = us ++ [top] := by
    rw [isVisible, List.append_assoc, List.erase_append_right _ notLow, List.singleton_append,
      List.erase_cons_head]
  have isTarget : d.cycleTarget direction = some t := by
    rw [cycleTarget_eq, if_pos backwards, isVisible, List.dropLast_concat, List.getLast?_concat]
    rfl
  have member : t ∈ d.visible := by
    rw [isVisible, List.append_assoc]
    exact List.mem_append_right us List.mem_cons_self
  have inList := (d.mem_visible.mp member)
  have isTop : d.htkTop = some top := by rw [htkTop_eq, isVisible, List.getLast?_concat]
  -- the first call brings the second window to the top
  have rises : d.Rises t := by
    by_contra rises
    have covered := covered_of_not_rises isTarget member rises
    rw [isErased, List.getLast?_concat, ← isTop] at covered
    have ends := cycles.distinct Nat.zero_lt_one (by omega) covered.symm
    omega
  have first : (d.htkWindowCycle direction).visible = us ++ [top] ++ [t] := by
    rw [htkWindowCycle_eq isTarget inList.1, visible_raise_rises inList.2 rises, isErased]
  generalize isNext : d.htkWindowCycle direction = d' at first
  have isTarget' : d'.cycleTarget direction = some top := by
    rw [cycleTarget_eq, if_pos backwards, first, List.dropLast_concat, List.getLast?_concat]
    rfl
  have member' : top ∈ d'.visible := by
    rw [first, List.append_assoc]
    exact List.mem_append_right us List.mem_cons_self
  have inList' := d'.mem_visible.mp member'
  have twice : cycleTimes direction 2 d = d'.htkWindowCycle direction := by
    rw [cycleTimes, cycleTimes, cycleTimes, isNext]
  have once : cycleTimes direction 1 d = d' := isNext
  by_cases rises' : d'.Rises top
  · have raised : (d'.htkWindowCycle direction).htkTop = some top := by
      rw [htkTop_eq, htkWindowCycle_eq isTarget' inList'.1,
        visible_raise_rises inList'.2 rises', List.getLast?_concat]
    rw [← twice, ← isTop] at raised
    exact (cycles.distinct Nat.zero_lt_two several raised.symm).2.symm
  · have covered := covered_of_not_rises isTarget' member' rises'
    have notLow' : top ∉ us := fun inUs => topApart (List.mem_append_left _ inUs)
    rw [first, List.append_assoc, List.erase_append_right _ notLow', List.singleton_append,
      List.erase_cons_head, List.getLast?_concat] at covered
    have same : (cycleTimes direction 1 d).htkTop = (cycleTimes direction 2 d).htkTop := by
      rw [twice, covered, once, htkTop_eq, first, List.getLast?_concat]
    have ends := cycles.distinct Nat.one_lt_two several same
    omega

theorem cycles_few (few : d.visible.length ≤ 1) (direction : Int) : d.Cycles direction := by
  cases isVisible : d.visible with
  | nil =>
    unfold Cycles
    rw [isVisible]
    exact ⟨List.Perm.refl _, rfl⟩
  | cons w ws =>
    have alone : ws = [] := by
      rw [isVisible, List.length_cons] at few
      exact List.eq_nil_of_length_eq_zero (by omega)
    rw [alone] at isVisible
    have member : w ∈ d.visible := isVisible ▸ List.mem_cons_self
    have inList := d.mem_visible.mp member
    have isTarget : d.cycleTarget direction = some w := by
      rw [cycleTarget_eq, isVisible]
      split
      · rfl
      · rfl
    have rises : d.Rises w := by
      right
      intro v inRest
      by_contra shown
      have inErased := (List.dropWhile_sublist _).subset inRest
      have inWindows := List.mem_of_mem_erase inErased
      have other := d.mem_visible.mpr ⟨inWindows, by simpa using shown⟩
      rw [isVisible, List.mem_singleton] at other
      rw [other] at inErased
      exact d.distinct.not_mem_erase inErased
    have raised : (d.htkWindowCycle direction).htkTop = some w := by
      rw [htkTop_eq, htkWindowCycle_eq isTarget inList.1,
        visible_raise_rises inList.2 rises, List.getLast?_concat]
    unfold Cycles
    rw [isVisible, List.length_singleton, tops, tops, cycleTimes, cycleTimes, raised, htkTop_eq,
      isVisible]
    exact ⟨List.Perm.refl _, rfl⟩

theorem Level.cycles (level : d.Level) (forwards : 0 ≤ direction) : d.Cycles direction := by
  have run := forwards_run forwards d.visible (Or.inr level) (List.append_nil _).symm
  unfold Cycles
  rw [run.1, htkTop_eq, run.2, List.nil_append, htkTop_eq]
  exact ⟨List.Perm.refl _, rfl⟩

/-- The calls reach every window if and only if there is one at most, or all are on one level
and the direction is forwards or there are two. -/
theorem htkWindowCycle_reaches_iff (d : Desktop) (direction : Int) :
    d.Cycles direction ↔ d.visible.length ≤ 1 ∨
      (0 ≤ direction ∨ d.visible.length = 2) ∧ d.Level := by
  constructor
  · intro cycles
    by_cases few : d.visible.length ≤ 1
    · exact Or.inl few
    · right
      by_cases forwards : 0 ≤ direction
      · have cycles' := (cycles_zero (Or.inl forwards)).mp cycles
        exact ⟨Or.inl forwards, cycles'.level (by omega)⟩
      · have isTwo := cycles.two (Int.not_le.mp forwards) (by omega)
        exact ⟨Or.inr isTwo, ((cycles_zero (Or.inr isTwo)).mp cycles).level (by omega)⟩
  · intro either
    cases either with
    | inl few => exact cycles_few few direction
    | inr both =>
        cases both.1 with
        | inl forwards => exact both.2.cycles forwards
        | inr isTwo => exact (cycles_zero (Or.inr isTwo)).mpr (both.2.cycles (Int.le_refl 0))

/-- Three windows, none of them minimized or always on top. -/
def threeWindows : Desktop := ⟨[0, 1, 2], fun _ => false, fun _ => false, by decide⟩

def oneOnTop : Desktop := ⟨[0, 1, 2], fun _ => false, fun w => w = 2, by decide⟩

/-- Backwards the first window is never reached, forwards the top one is never left. -/
theorem cycling_misses_windows :
    (tops (-1) 3 threeWindows = [some 1, some 2, some 1] ∧ ¬ threeWindows.Cycles (-1)) ∧
      (tops 1 3 oneOnTop = [some 2, some 2, some 2] ∧ ¬ oneOnTop.Cycles 1) := by
  refine ⟨⟨by decide, ?_⟩, by decide, ?_⟩
  · intro cycles
    exact absurd cycles.1 (by decide)
  · intro cycles
    exact absurd cycles.1 (by decide)

end Desktop

end Aholyc.Htk
