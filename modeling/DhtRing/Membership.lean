import DhtRing.Phases

/-!
# How the phases follow each other

Each step of a membership change as an update of the topology, with the phase that
it leads to.
-/

set_option autoImplicit false

namespace DhtRing

variable {T : Topology} {control : Loc → List Pdu} {plan : Plan}

theorem Idle.away_of_absent (idle : Idle T control plan) {j : Addr} (absent : T.pc j = .absent) :
    ¬ plan.Member j ∧ T.backlog j = [] := by
  have fresh : ¬ plan.Member j := by
    intro mem
    rw [idle.idle j mem] at absent
    cases absent
  refine ⟨fresh, ?_⟩
  rcases idle.ring.away j fresh (fun guest => guest) with ⟨-, empty⟩ | gone
  · exact empty
  · rw [absent] at gone
    cases gone

/-! ## Joining -/

def Topology.start (T : Topology) (j : Addr) : Topology :=
  { T with
    pc := Function.update T.pc j .q7Accept
    wiring := Function.update T.wiring j (SelfData.setup j).wiring }

theorem Idle.join (idle : Idle T control plan) {j e : Addr} (absent : T.pc j = .absent)
    (port : j.port ≠ 0) (entry : plan.Member e) :
    Joining (T.start j) (post [(.udp e, joinPdu j)]) plan j e (.udp e) 0 ⟨0, 0⟩ := by
  obtain ⟨fresh, backlog⟩ := idle.away_of_absent absent
  have touches : Touches T (T.start j) j :=
    ⟨fun n other => Function.update_of_ne other .., fun n other => Function.update_of_ne other ..,
      fun _ _ => rfl, le_rfl⟩
  have wiring : (T.start j).wiring j = (SelfData.setup j).wiring := Function.update_self ..
  refine ⟨?_, fresh, port, ?_, Function.update_self .., ?_, ?_, backlog, entry, Or.inl rfl,
    Or.inl ⟨rfl, rfl⟩, rfl⟩
  · refine idle.ring.touch touches (fun mem => absurd mem fresh) ?_ ?_ ?_ ?_ idle.ring.fresh
    · intro n mem _ near
      rcases near with rfl | next | bare | backlog
      · exact absurd mem fresh
      · exact absurd (next ▸ Plan.member_next idle.ring.tiled mem) fresh
      · exact bare.elim
      · exact absurd rfl backlog
    · intro n _ not_guest near
      rcases near with rfl | guest | backlog
      · exact absurd rfl not_guest
      · exact guest.elim
      · exact absurd rfl backlog
    · rw [wiring]
      rfl
    · exact ⟨by simp [wiring, SelfData.wiring, SelfData.setup],
        by simp [wiring, SelfData.wiring, SelfData.setup]⟩
  · intro n mem
    have other : n ≠ j := fun eq => fresh (eq ▸ mem)
    rw [touches.pc n other]
    exact idle.idle n mem
  · exact ⟨by rw [wiring]; rfl, by rw [wiring]; rfl⟩
  · exact ⟨by rw [wiring]; rfl, by rw [wiring]; rfl⟩

section

variable {j a : Addr} {loc : Loc} {maxSpan : UInt8} {max : Addr}

theorem Joining.forward (joining : Joining T control plan j a loc maxSpan max) {c : Conn}
    (inn : T.In (plan.next a) c) {maxSpan' : UInt8} {max' : Addr}
    (named : (maxSpan' = maxSpan ∧ max' = max) ∨ (max' = a ∧ plan.lo a < plan.hi a)) :
    Joining T (post [(.up c, .netJoin j maxSpan' max')]) plan j (plan.next a) (.up c)
      maxSpan' max' where
  ring := joining.ring
  fresh := joining.fresh
  port := joining.port
  idle := joining.idle
  pc := joining.pc
  noOut := joining.noOut
  noIn := joining.noIn
  backlog := joining.backlog
  reader := Plan.member_next joining.ring.tiled joining.reader
  reads := Or.inr ⟨c, inn, rfl⟩
  named := by
    rcases named with ⟨rfl, rfl⟩ | ⟨rfl, wide⟩
    · exact joining.named
    · exact Or.inr ⟨joining.reader, wide⟩
  posts := rfl

def Topology.split (T : Topology) (k j : Addr) (mid : UInt8) (pc : Pc) : Topology :=
  let conn : Conn := ⟨k, j, T.serial⟩
  { T with
    pc := Function.update T.pc k pc
    wiring := Function.update T.wiring k { T.wiring k with
      rangeEnd := mid
      successor := ⟨some conn, j⟩
      fdsSuccessor := some conn }
    backlog := Function.update T.backlog j [conn]
    serial := T.serial + 1 }

/-- What a split leaves of the ring: the old link from `k` is gone, the new one is not
accepted yet. -/
theorem Joining.ring_split (joining : Joining T control plan j a loc maxSpan max) {k : Addr}
    (mem : plan.Member k) {mid : UInt8} (from_lo : plan.lo k ≤ mid.toNat)
    (below : mid.toNat < plan.hi k) (pc : Pc) :
    Ring (T.split k j mid pc) (plan.split k mid.toNat j) (fun n => n = j ∨ n = k)
      (fun _ => False) := by
  have ring := joining.ring
  have tiled := ring.tiled
  have fresh := joining.fresh
  have other : j ≠ k := fun eq => fresh (eq ▸ mem)
  have wiring_j : (T.split k j mid pc).wiring j = T.wiring j := Function.update_of_ne other ..
  have wiring_k : (T.split k j mid pc).wiring k = _ := Function.update_self ..
  have touches : Touches T (T.split k j mid pc) k :=
    ⟨fun n other => Function.update_of_ne other .., fun n other => Function.update_of_ne other ..,
      fun _ _ => rfl, Nat.le_succ _⟩
  have members : ∀ n, (plan.split k mid.toNat j).Member n ↔ n = j ∨ plan.Member n :=
    fun n => Plan.member_split tiled mem from_lo below
  refine ⟨Plan.tiled_split tiled mem from_lo below fresh, ?_, ?_, ?_, ?_, ?_, ?_, ?_⟩
  · intro n mem_n born
    rcases (members n).mp mem_n with rfl | old
    · rw [touches.pc n other, joining.pc] at born
      cases born
    · have not_j : n ≠ j := fun eq => fresh (eq ▸ old)
      have born_before : (T.pc n).born = true := by
        rw [joining.idle n old]
        rfl
      obtain ⟨start, stop⟩ := ring.range n old born_before
      simp only [Plan.split, Function.update_of_ne not_j]
      by_cases here : n = k
      · subst here
        rw [wiring_k, Function.update_self]
        exact ⟨start, rfl⟩
      · rw [touches.wiring n here, Function.update_of_ne here]
        exact ⟨start, stop⟩
  · intro n mem_n whole
    rw [not_or] at whole
    obtain ⟨not_j, not_k⟩ := whole
    have old := ((members n).mp mem_n).resolve_left not_j
    rw [Plan.next_split_of_ne tiled mem from_lo old not_k not_j]
    have mem_next := Plan.member_next tiled old
    have next_not_j : plan.next n ≠ j := fun eq => fresh (eq ▸ mem_next)
    have backlog : (T.split k j mid pc).backlog (plan.next n) = T.backlog (plan.next n) :=
      Function.update_of_ne next_not_j ..
    by_cases next_k : plan.next n = k
    · -- the split leaves the predecessor's side of `k` as it was
      rw [next_k] at backlog ⊢
      rcases ring.linked n old (fun bare => bare) with ⟨-, c, out, inn, waits⟩ | ⟨self, -⟩
      · rw [next_k] at out inn waits
        refine Or.inl ⟨not_k, c, touches.out not_k out, ?_, backlog.trans waits⟩
        exact inn.congr (by rw [wiring_k]) (by rw [wiring_k]) rfl touches.serial
      · exact absurd (self.trans next_k) not_k
    · exact touches.linked not_k next_k backlog (ring.linked n old (fun bare => bare))
  · intro n outside _
    have not_j : n ≠ j := fun eq => outside ((members n).mpr (Or.inl eq))
    have not_old : ¬ plan.Member n := fun old => outside ((members n).mpr (Or.inr old))
    have not_k : n ≠ k := fun eq => not_old (eq ▸ mem)
    have backlog : (T.split k j mid pc).backlog n = T.backlog n := Function.update_of_ne not_j ..
    rcases ring.away n not_old not_j with ⟨absent, empty⟩ | gone
    · exact Or.inl ⟨(touches.pc n not_k).trans absent, backlog.trans empty⟩
    · exact Or.inr ((touches.pc n not_k).trans gone)
  · intro n mem_n
    rcases (members n).mp mem_n with rfl | old
    · exact joining.port
    · exact ring.port n old
  · intro n
    by_cases here : n = k
    · subst here
      rw [wiring_k]
      exact ring.listening n
    · rw [touches.wiring n here]
      exact ring.listening n
  · intro n
    have before := ring.held n
    by_cases here : n = k
    · subst here
      refine ⟨fun c fds => ?_, fun c fds => before.predecessor c ?_⟩
      · rw [wiring_k] at fds
        cases fds
        rfl
      · rwa [wiring_k] at fds
    · have wiring := touches.wiring n here
      exact ⟨fun c fds => before.successor c (wiring ▸ fds),
        fun c fds => before.predecessor c (wiring ▸ fds)⟩
  · intro c new
    exact ring.fresh c (Nat.le_of_succ_le new)

theorem Joining.accepting (joining : Joining T control plan j a loc maxSpan max) {k : Addr}
    (mem : plan.Member k) {mid start stop : UInt8} (from_lo : plan.lo k ≤ mid.toNat)
    (below : mid.toNat < plan.hi k) (above : start.toNat = mid.toNat + 1)
    (ends : stop.toNat = plan.hi k) (pc : Pc) :
    (Upper.accepting k ⟨k, j, T.serial⟩ start stop).Ok (T.split k j mid pc)
      (plan.split k mid.toNat j) j (plan.next k) := by
  have tiled := joining.ring.tiled
  have fresh := joining.fresh
  have other : j ≠ k := fun eq => fresh (eq ▸ mem)
  have wiring_j : (T.split k j mid pc).wiring j = T.wiring j := Function.update_of_ne other ..
  have wiring_k : (T.split k j mid pc).wiring k = _ := Function.update_self ..
  refine ⟨fun eq => fresh (eq ▸ Plan.member_next tiled mem),
    (Plan.member_split tiled mem from_lo below).mpr (Or.inr mem),
    Plan.next_split_self tiled mem below fresh, ?_, ?_, ?_, Function.update_self ..,
    (joining.ring.fresh ⟨k, j, T.serial⟩ le_rfl).2, ?_, ?_⟩
  · refine ⟨by rw [wiring_k], by rw [wiring_k], rfl, rfl, Nat.lt_succ_self _, ?_⟩
    exact (joining.ring.fresh ⟨k, j, T.serial⟩ le_rfl).1
  · exact ⟨by rw [wiring_j, joining.noIn.predecessor], by rw [wiring_j, joining.noIn.fds]⟩
  · exact ⟨by rw [wiring_j, joining.noOut.socket], by rw [wiring_j, joining.noOut.fds]⟩
  · simp [Plan.split, above]
  · simp [Plan.split, ends]

theorem Joining.split (joining : Joining T control plan j a loc maxSpan max) {k : Addr}
    (mem : plan.Member k) {mid start stop : UInt8} (from_lo : plan.lo k ≤ mid.toNat)
    (below : mid.toNat < plan.hi k) (above : start.toNat = mid.toNat + 1)
    (ends : stop.toNat = plan.hi k) {c : Conn} (out : T.Out k c (plan.next k))
    (inn : T.In (plan.next k) c) (backlog : T.backlog (plan.next k) = [])
    (several : plan.next k ≠ k) :
    Repair (T.split k j mid .q6)
      (post [(.up ⟨k, j, T.serial⟩, .netJoinResponse (plan.next k) start stop),
        (.up c, .netCloseConnection)])
      (plan.split k mid.toNat j) j (plan.next k) (.accepting k ⟨k, j, T.serial⟩ start stop)
      (.closing c) := by
  have tiled := joining.ring.tiled
  have fresh := joining.fresh
  have mem_next := Plan.member_next tiled mem
  have next_not_j : plan.next k ≠ j := fun eq => fresh (eq ▸ mem_next)
  have pc : ∀ n, (T.split k j mid .q6).pc n = T.pc n := by
    intro n
    by_cases here : n = k
    · rw [here, joining.idle k mem]
      exact Function.update_self ..
    · exact Function.update_of_ne here ..
  have wiring_k : (T.split k j mid .q6).wiring k = _ := Function.update_self ..
  have touches : Touches T (T.split k j mid .q6) k :=
    ⟨fun n other => Function.update_of_ne other .., fun n other => Function.update_of_ne other ..,
      fun _ _ => rfl, Nat.le_succ _⟩
  refine ⟨joining.ring_split mem from_lo below .q6,
    (Plan.member_split tiled mem from_lo below).mpr (Or.inl rfl), Plan.next_split_new tiled mem from_lo,
    ?_, ?_, ?_, joining.accepting mem from_lo below above ends .q6, ⟨?_, ?_⟩, ?_, rfl⟩
  · intro n mem_n not_j _
    rw [pc]
    exact joining.idle n (((Plan.member_split tiled mem from_lo below).mp mem_n).resolve_left not_j)
  · intro _
    rw [pc, joining.pc]
    rfl
  · rw [pc]
    exact joining.idle _ mem_next
  · exact touches.inn several inn
  · right
    rw [out.source, wiring_k]
    intro eq
    have := out.old
    rw [← Option.some.inj eq] at this
    exact lt_irrefl _ this
  · rw [show (T.split k j mid .q6).backlog (plan.next k) = _ from
      Function.update_of_ne next_not_j .., backlog]
    rfl

theorem Joining.splitAlone (joining : Joining T control plan j a loc maxSpan max) {k : Addr}
    (mem : plan.Member k) {mid start stop : UInt8} (from_lo : plan.lo k ≤ mid.toNat)
    (below : mid.toNat < plan.hi k) (above : start.toNat = mid.toNat + 1)
    (ends : stop.toNat = plan.hi k) (alone : plan.next k = k) (noIn : T.NoIn k)
    (backlog : T.backlog k = []) :
    Repair (T.split k j mid .q6Accept)
      (post [(.up ⟨k, j, T.serial⟩, .netJoinResponse k start stop)])
      (plan.split k mid.toNat j) j k (.accepting k ⟨k, j, T.serial⟩ start stop) .waiting := by
  have tiled := joining.ring.tiled
  have fresh := joining.fresh
  have other : j ≠ k := fun eq => fresh (eq ▸ mem)
  have accepting := joining.accepting mem from_lo below above ends .q6Accept
  have next_new := Plan.next_split_new (j := j) tiled mem from_lo
  have wiring_k : (T.split k j mid .q6Accept).wiring k = _ := Function.update_self ..
  rw [alone] at accepting next_new
  refine ⟨joining.ring_split mem from_lo below .q6Accept,
    (Plan.member_split tiled mem from_lo below).mpr (Or.inl rfl), next_new, ?_, ?_,
    Function.update_self .., accepting, ⟨other, ?_⟩, ?_, rfl⟩
  · intro n mem_n not_j not_k
    have old := ((Plan.member_split tiled mem from_lo below).mp mem_n).resolve_left not_j
    rw [show (T.split k j mid .q6Accept).pc n = T.pc n from Function.update_of_ne not_k ..]
    exact joining.idle n old
  · intro _
    rw [show (T.split k j mid .q6Accept).pc j = T.pc j from Function.update_of_ne other ..,
      joining.pc]
    rfl
  · exact ⟨by rw [wiring_k]; exact noIn.predecessor, by rw [wiring_k]; exact noIn.fds⟩
  · rw [show (T.split k j mid .q6Accept).backlog k = _ from
      Function.update_of_ne (Ne.symm other) .., backlog]
    rfl

end

/-! ## Repairing the links -/

section

variable {x y : Addr} {upper : Upper} {lower : Lower} {c : Conn} {rangeStart rangeEnd : UInt8}

theorem Repair.next_eq (repair : Repair T control plan x y upper lower) {n : Addr}
    (mem : plan.Member n) (next : plan.next n = y) : n = x :=
  Plan.next_inj repair.ring.tiled mem repair.member (next.trans repair.next.symm)

def Topology.accept (T : Topology) (m : Addr) (c : Conn) (pc : Pc) : Topology :=
  { T with
    pc := Function.update T.pc m pc
    wiring := Function.update T.wiring m { T.wiring m with
      predecessor := some c
      fdsPredecessor := some c }
    backlog := Function.update T.backlog m [] }

def Topology.close (T : Topology) (m : Addr) (c : Conn) (pc : Pc) : Topology :=
  { T with
    pc := Function.update T.pc m pc
    wiring := Function.update T.wiring m { T.wiring m with
      predecessor := none
      fdsPredecessor := none }
    shut := Function.update T.shut (.down c) true }

theorem Topology.hears_accept (T : Topology) (m : Addr) (c : Conn) (pc : Pc) :
    Hears T (T.accept m c pc) m where
  pc _ other := Function.update_of_ne other ..
  wiring _ other := Function.update_of_ne other ..
  shut _ _ := rfl
  serial := le_rfl
  successor := by rw [show (T.accept m c pc).wiring m = _ from Function.update_self ..]
  fdsSuccessor := by rw [show (T.accept m c pc).wiring m = _ from Function.update_self ..]
  up _ := rfl
  same_serial := rfl
  backlog _ other := Function.update_of_ne other ..

theorem Topology.hears_close (T : Topology) {m : Addr} (inn : T.In m c) (pc : Pc) :
    Hears T (T.close m c pc) m where
  pc _ other := Function.update_of_ne other ..
  wiring _ other := Function.update_of_ne other ..
  shut loc other := by
    refine Function.update_of_ne (fun eq => other ?_) ..
    rw [eq, Loc.writer, inn.target]
  serial := le_rfl
  successor := by rw [show (T.close m c pc).wiring m = _ from Function.update_self ..]
  fdsSuccessor := by rw [show (T.close m c pc).wiring m = _ from Function.update_self ..]
  up c' := by
    have other : Loc.up c' ≠ .down c := by simp
    exact Function.update_of_ne other true T.shut
  same_serial := rfl
  backlog _ _ := rfl

/-- The successor's side of `x` does not notice. -/
theorem Hears.upper_ok {T' : Topology} (hears : Hears T T' y) (apart : x ≠ y)
    (runs : T.pc y ≠ .exited true)
    (kept : ∀ c, T.Out x c y → T'.shut (.down c) = T.shut (.down c))
    (ok : upper.Ok T plan x y) : upper.Ok T' plan x y := by
  cases upper with
  | accepting w c start stop =>
      obtain ⟨-, mem, next, out, noIn, noOut, backlog, is_open, ends⟩ := ok
      have down : T'.shut (.down c) = T.shut (.down c) := by
        apply hears.shut
        rw [Loc.writer, out.target]
        simpa using apart
      exact ⟨apart, mem, next, hears.out out, hears.noIn apart noIn, hears.noOut noOut,
        (hears.backlog x apart).trans backlog, down.trans is_open, ends⟩
  | receiving c start stop =>
      obtain ⟨-, inn, noOut, ends⟩ := ok
      exact ⟨apart, hears.inn apart inn, hears.noOut noOut, ends⟩
  | orphan c =>
      obtain ⟨out, gone⟩ := ok
      have other : c.target ≠ y := fun eq => runs (eq ▸ gone)
      exact ⟨hears.out out, (hears.pc _ other).trans gone⟩
  | connected c =>
      obtain ⟨-, out, is_open⟩ := ok
      exact ⟨apart, hears.out out, (kept c out).trans is_open⟩
  | alone => exact absurd ok.1 apart

theorem Touches.lower_ok {T' : Topology} (touches : Touches T T' x) (apart : x ≠ y)
    (runs : T.pc x ≠ .exited true)
    (dead : ∀ c : Conn, c.serial < T.serial → (T.wiring x).fdsSuccessor ≠ some c →
      (T'.wiring x).fdsSuccessor ≠ some c)
    (ok : lower.Ok T x y) : lower.Ok T' x y := by
  cases lower with
  | closing c =>
      obtain ⟨inn, gone⟩ := ok
      refine ⟨touches.inn (Ne.symm apart) inn, ?_⟩
      by_cases here : c.source = x
      · rw [here] at gone ⊢
        exact Or.inr (dead c inn.old (gone.resolve_left runs))
      · rw [touches.pc _ here, touches.wiring _ here]
        exact gone
  | waiting => exact ⟨apart, touches.noIn (Ne.symm apart) ok.2⟩
  | alone => exact absurd ok.1 apart

theorem Upper.feeds_member (repair : Repair T control plan x y upper lower) {n : Addr}
    (feeds : upper.feeds n) : plan.Member n ∧ plan.next n = x := by
  have ok := repair.upper_ok
  cases upper with
  | accepting w c start stop =>
      obtain rfl : n = w := feeds
      exact ⟨ok.2.1, ok.2.2.1⟩
  | _ => exact feeds.elim

theorem Upper.runs (upper : Upper) (graceful : Bool) : upper.pc ≠ .exited graceful := by
  cases upper <;> simp [Upper.pc]

theorem Lower.runs (lower : Lower) (graceful : Bool) : lower.pc ≠ .exited graceful := by
  cases lower <;> simp [Lower.pc]

theorem Repair.accept {w : Addr}
    (repair : Repair T control plan x y (.accepting w c rangeStart rangeEnd) lower) :
    Repair (T.accept x c .q7Receive) control plan x y (.receiving c rangeStart rangeEnd) lower := by
  obtain ⟨apart, mem_w, next_w, out_w, noIn, noOut, backlog, is_open, start, stop⟩ :=
    repair.upper_ok
  have ring := repair.ring
  have hears := T.hears_accept x c .q7Receive
  have wiring_x : (T.accept x c .q7Receive).wiring x = _ := Function.update_self ..
  have inn : (T.accept x c .q7Receive).In x c :=
    ⟨by rw [wiring_x], by rw [wiring_x], out_w.target, out_w.old, is_open⟩
  have not_w : w ≠ x := fun eq => apart (by rw [← repair.next, ← eq, next_w, eq])
  refine ⟨?_, repair.member, repair.next, ?_, fun _ => Function.update_self .., ?_,
    ⟨apart, inn, hears.noOut noOut, start, stop⟩, ?_, ?_, repair.posts⟩
  · refine ring.hears hears repair.member ?_ ?_ ?_ ?_ ?_ ?_
    · intro n mem whole
      simp only [not_or] at whole
      constructor
      · intro next
        obtain rfl := Plan.next_inj ring.tiled mem mem_w (next.trans next_w.symm)
        exact Or.inl ⟨not_w, c, hears.out out_w, inn, Function.update_self ..⟩
      · rintro next (here | feeds)
        · exact whole.1 here
        · obtain rfl : n = w := feeds
          exact next next_w
    · intro born
      rw [show (T.accept x c .q7Receive).pc x = _ from Function.update_self ..] at born
      cases born
    · rw [wiring_x]
      exact ⟨rfl, rfl⟩
    · rw [wiring_x]
    · intro c' fds
      rw [wiring_x] at fds
      cases fds
      exact out_w.target
    · exact fun c' new => (ring.fresh c' new).2
  · intro n mem not_x not_y
    rw [hears.pc n not_x]
    exact repair.idle n mem not_x not_y
  · rw [hears.pc y (Ne.symm apart)]
    exact repair.pc_y
  · refine hears.toTouches.lower_ok apart ?_ ?_ repair.lower_ok
    · rw [repair.pc_x apart]
      exact Upper.runs _ _
    · intro c' _ dead
      rwa [hears.fdsSuccessor]
  · rw [hears.backlog y (Ne.symm apart)]
    exact repair.backlog

def Topology.connect (T : Topology) (x y : Addr) (rangeStart rangeEnd : UInt8)
    (shut : Loc → Bool) : Topology :=
  let conn : Conn := ⟨x, y, T.serial⟩
  { pc := Function.update T.pc x .q6
    wiring := Function.update T.wiring x { T.wiring x with
      rangeStart := rangeStart
      rangeEnd := rangeEnd
      successor := ⟨some conn, y⟩
      fdsSuccessor := some conn }
    shut := shut
    backlog := Function.update T.backlog y (T.backlog y ++ [conn])
    serial := T.serial + 1 }

theorem Repair.connect (repair : Repair T control plan x y upper lower) (apart : x ≠ y)
    (alone : upper.waits = []) (feeds : ∀ n, ¬ upper.feeds n)
    (start : rangeStart.toNat = plan.lo x) (stop : rangeEnd.toNat = plan.hi x)
    {shut : Loc → Bool} (same : ∀ loc, loc.writer ≠ some x → shut loc = T.shut loc)
    (down : ∀ c, shut (.down c) = T.shut (.down c))
    (fresh : ∀ c, T.serial ≤ c.serial → shut (.up c) = false) :
    Repair (T.connect x y rangeStart rangeEnd shut) (post lower.posts) plan x y
      (.connected ⟨x, y, T.serial⟩) lower := by
  have ring := repair.ring
  have wiring_x : (T.connect x y rangeStart rangeEnd shut).wiring x = _ :=
    Function.update_self ..
  have speaks : Speaks T (T.connect x y rangeStart rangeEnd shut) x y :=
    { pc := fun _ other => Function.update_of_ne other _ _
      wiring := fun _ other => Function.update_of_ne other _ _
      shut := same
      serial := Nat.le_succ _
      predecessor := by rw [wiring_x]
      fdsPredecessor := by rw [wiring_x]
      down := down
      backlog := fun _ other => Function.update_of_ne other _ _ }
  refine ⟨?_, repair.member, repair.next, ?_, fun _ => Function.update_self .., ?_,
    ⟨apart, ?_, ?_⟩, ?_, ?_, rfl⟩
  · refine ring.speaks speaks repair.member repair.next ?_ (Or.inl rfl) ?_ ?_ ?_ ?_
    · rintro k - whole (here | fed)
      · exact whole (Or.inl here)
      · exact feeds k fed
    · intro _
      rw [wiring_x]
      exact ⟨start, stop⟩
    · rw [wiring_x]
    · intro c' fds
      rw [wiring_x] at fds
      cases fds
      rfl
    · exact fun c' new => fresh c' (Nat.le_of_succ_le new)
  · intro n mem not_x not_y
    rw [speaks.pc n not_x]
    exact repair.idle n mem not_x not_y
  · rw [speaks.pc y (Ne.symm apart)]
    exact repair.pc_y
  · exact ⟨by rw [wiring_x], by rw [wiring_x], rfl, rfl, Nat.lt_succ_self _, fresh _ le_rfl⟩
  · exact (down _).trans (ring.fresh _ le_rfl).2
  · refine speaks.toTouches.lower_ok apart ?_ ?_ repair.lower_ok
    · rw [repair.pc_x apart]
      exact Upper.runs _ _
    · intro c' old _ eq
      rw [wiring_x] at eq
      cases eq
      exact lt_irrefl _ old
  · rw [show (T.connect x y rangeStart rangeEnd shut).backlog y = _ from Function.update_self ..,
      repair.backlog, alone]
    rfl

theorem Repair.response
    (repair : Repair T control plan x y (.receiving c rangeStart rangeEnd) lower) :
    Repair (T.connect x y rangeStart rangeEnd T.shut) (post lower.posts) plan x y
      (.connected ⟨x, y, T.serial⟩) lower := by
  obtain ⟨apart, -, -, start, stop⟩ := repair.upper_ok
  exact repair.connect apart rfl (fun _ fed => fed) start stop (fun _ _ => rfl) (fun _ => rfl)
    fun c' new => (repair.ring.fresh c' new).1

theorem Repair.leaving (repair : Repair T control plan x y (.orphan c) lower) (apart : x ≠ y) :
    Repair (T.connect x y (T.wiring x).rangeStart (T.wiring x).rangeEnd
      (Function.update T.shut (.up c) true)) (post lower.posts) plan x y
      (.connected ⟨x, y, T.serial⟩) lower := by
  obtain ⟨out, -⟩ := repair.upper_ok
  have born : (T.pc x).born = true := by
    rw [repair.pc_x apart]
    rfl
  obtain ⟨start, stop⟩ := repair.ring.range x repair.member born
  refine repair.connect apart rfl (fun _ fed => fed) start stop ?_ ?_ ?_
  · intro loc other
    refine Function.update_of_ne (fun eq => other ?_) ..
    rw [eq, Loc.writer, out.source]
  · intro c'
    have other : Loc.down c' ≠ .up c := by simp
    exact Function.update_of_ne other true T.shut
  · intro c' new
    have other : Loc.up c' ≠ .up c := by
      intro eq
      cases eq
      exact Nat.not_lt.mpr new out.old
    rw [Function.update_of_ne other]
    exact (repair.ring.fresh c' new).1

def Topology.disconnect (T : Topology) (x : Addr) (c : Conn) : Topology :=
  { T with
    wiring := Function.update T.wiring x { T.wiring x with
      successor := ⟨none, (T.wiring x).successor.destAddr⟩
      fdsSuccessor := none }
    shut := Function.update T.shut (.up c) true }

theorem Repair.leavingLast (repair : Repair T control plan x x (.orphan c) lower) :
    Repair (T.disconnect x c) (post lower.posts) plan x x .alone lower := by
  obtain ⟨out, gone⟩ := repair.upper_ok
  have ring := repair.ring
  have wiring_x : (T.disconnect x c).wiring x = _ := Function.update_self ..
  have down : ∀ c', (T.disconnect x c).shut (.down c') = T.shut (.down c') := by
    intro c'
    have other : Loc.down c' ≠ .up c := by simp
    exact Function.update_of_ne other true T.shut
  have speaks : Speaks T (T.disconnect x c) x x :=
    { pc := fun _ _ => rfl
      wiring := fun _ other => Function.update_of_ne other _ _
      shut := by
        intro loc other
        refine Function.update_of_ne (fun eq => other ?_) ..
        rw [eq, Loc.writer, out.source]
      serial := le_rfl
      predecessor := by rw [wiring_x]
      fdsPredecessor := by rw [wiring_x]
      down := down
      backlog := fun _ _ => rfl }
  refine ⟨?_, repair.member, repair.next, repair.idle, fun other => absurd rfl other,
    repair.pc_y, ⟨rfl, by rw [wiring_x], by rw [wiring_x]⟩, ?_, repair.backlog, rfl⟩
  · refine ring.speaks speaks repair.member repair.next ?_ (Or.inl rfl) ?_ ?_ ?_ ?_
    · rintro k - whole (here | fed)
      · exact whole (Or.inl here)
      · exact fed
    · intro born
      rw [wiring_x]
      exact ring.range x repair.member born
    · rw [wiring_x]
    · intro c' fds
      rw [wiring_x] at fds
      cases fds
    · intro c' new
      have other : Loc.up c' ≠ .up c := by
        intro eq
        cases eq
        exact Nat.not_lt.mpr new out.old
      exact (Function.update_of_ne other _ _).trans (ring.fresh c' new).1
  · have ok := repair.lower_ok
    cases lower with
    | closing c' =>
        obtain ⟨inn, dead⟩ := ok
        refine ⟨speaks.inn inn, ?_⟩
        by_cases here : c'.source = x
        · rw [here, wiring_x]
          exact Or.inr (by simp)
        · rw [speaks.wiring _ here]
          exact dead
    | waiting => exact absurd rfl ok.1
    | alone => exact ⟨rfl, speaks.noIn ok.2⟩

theorem Repair.close (repair : Repair T control plan x y upper (.closing c)) (apart : x ≠ y) :
    Repair (T.close y c .q6Accept) (post (upper.posts y)) plan x y upper .waiting := by
  obtain ⟨inn, dead⟩ := repair.lower_ok
  have ring := repair.ring
  have mem_y : plan.Member y := repair.next ▸ Plan.member_next ring.tiled repair.member
  have hears := T.hears_close inn .q6Accept
  have wiring_y : (T.close y c .q6Accept).wiring y = _ := Function.update_self ..
  refine ⟨?_, repair.member, repair.next, ?_, ?_, Function.update_self .., ?_,
    ⟨apart, by rw [wiring_y], by rw [wiring_y]⟩, repair.backlog, by simp [Lower.posts]⟩
  · refine ring.hears hears mem_y ?_ ?_ ?_ ?_ ?_ ?_
    · intro n mem whole
      rw [not_or] at whole
      constructor
      · exact fun next => absurd (repair.next_eq mem next) whole.1
      · rintro - (here | feeds)
        · exact whole.1 here
        · exact whole.2 feeds
    · intro _
      rw [repair.pc_y]
      rfl
    · rw [wiring_y]
      exact ⟨rfl, rfl⟩
    · rw [wiring_y]
    · intro c' fds
      rw [wiring_y] at fds
      cases fds
    · intro c' new
      have other : Loc.down c' ≠ .down c := by
        intro eq
        cases eq
        exact Nat.not_lt.mpr new inn.old
      exact (Function.update_of_ne other _ _).trans (ring.fresh c' new).2
  · intro n mem not_x not_y
    rw [hears.pc n not_y]
    exact repair.idle n mem not_x not_y
  · intro _
    rw [hears.pc x apart]
    exact repair.pc_x apart
  · refine hears.upper_ok apart ?_ ?_ repair.upper_ok
    · rw [repair.pc_y]
      exact Lower.runs _ _
    · intro c' out
      refine Function.update_of_ne (fun eq => ?_) true T.shut
      cases eq
      rw [out.source] at dead
      rcases dead with gone | lost
      · rw [repair.pc_x apart] at gone
        exact Upper.runs _ _ gone
      · exact lost out.fds

theorem Repair.closeLast (repair : Repair T control plan x x upper (.closing c)) :
    Repair (T.close x c .q6) (post (upper.posts x)) plan x x upper .alone := by
  obtain ⟨inn, -⟩ := repair.lower_ok
  have ring := repair.ring
  have hears := T.hears_close inn .q6
  have wiring_x : (T.close x c .q6).wiring x = _ := Function.update_self ..
  refine ⟨?_, repair.member, repair.next, ?_, fun other => absurd rfl other,
    Function.update_self .., ?_, ⟨rfl, by rw [wiring_x], by rw [wiring_x]⟩, repair.backlog,
    by simp [Lower.posts]⟩
  · refine ring.hears hears repair.member ?_ ?_ ?_ ?_ ?_ ?_
    · intro n mem whole
      rw [not_or] at whole
      constructor
      · exact fun next => absurd (repair.next_eq mem next) whole.1
      · rintro - (here | feeds)
        · exact whole.1 here
        · exact whole.2 feeds
    · intro _
      rw [repair.pc_y]
      rfl
    · rw [wiring_x]
      exact ⟨rfl, rfl⟩
    · rw [wiring_x]
    · intro c' fds
      rw [wiring_x] at fds
      cases fds
    · intro c' new
      have other : Loc.down c' ≠ .down c := by
        intro eq
        cases eq
        exact Nat.not_lt.mpr new inn.old
      exact (Function.update_of_ne other _ _).trans (ring.fresh c' new).2
  · intro n mem not_x not_y
    rw [hears.pc n not_y]
    exact repair.idle n mem not_x not_y
  · have ok := repair.upper_ok
    cases upper with
    | accepting w c' start stop => exact absurd rfl ok.1
    | receiving c' start stop => exact absurd rfl ok.1
    | connected c' => exact absurd rfl ok.1
    | orphan c' =>
        obtain ⟨out, gone⟩ := ok
        have other : c'.target ≠ x := by
          intro eq
          rw [eq, repair.pc_y] at gone
          cases gone
        exact ⟨hears.out out, (hears.pc _ other).trans gone⟩
    | alone => exact ⟨rfl, hears.noOut ok.2⟩

theorem Repair.settle (repair : Repair T control plan x y (.connected c) .waiting) :
    Idle (T.accept y c .q6) (post []) plan := by
  obtain ⟨apart, out, is_open⟩ := repair.upper_ok
  have ring := repair.ring
  have mem_y : plan.Member y := repair.next ▸ Plan.member_next ring.tiled repair.member
  have hears := T.hears_accept y c .q6
  have wiring_y : (T.accept y c .q6).wiring y = _ := Function.update_self ..
  have inn : (T.accept y c .q6).In y c :=
    ⟨by rw [wiring_y], by rw [wiring_y], out.target, out.old, is_open⟩
  refine ⟨?_, ?_, rfl⟩
  · refine ring.hears hears mem_y ?_ ?_ ?_ ?_ ?_ ?_
    · intro n mem _
      constructor
      · intro next
        obtain rfl := repair.next_eq mem next
        exact Or.inl ⟨apart, c, hears.out out, inn, Function.update_self ..⟩
      · rintro next (rfl | feeds)
        · exact next repair.next
        · exact feeds
    · intro _
      rw [repair.pc_y]
      rfl
    · rw [wiring_y]
      exact ⟨rfl, rfl⟩
    · rw [wiring_y]
    · intro c' fds
      rw [wiring_y] at fds
      cases fds
      exact out.target
    · exact fun c' new => (ring.fresh c' new).2
  · intro n mem
    by_cases not_y : n = y
    · subst not_y
      exact Function.update_self ..
    · rw [hears.pc n not_y]
      by_cases not_x : n = x
      · subst not_x
        exact repair.pc_x apart
      · exact repair.idle n mem not_x not_y

theorem Repair.last (repair : Repair T control plan x y .alone .alone) :
    Idle T control plan := by
  obtain ⟨rfl, noOut⟩ := repair.upper_ok
  obtain ⟨-, noIn⟩ := repair.lower_ok
  have ring := repair.ring
  refine ⟨⟨ring.tiled, ring.range, ?_, ring.away, ring.port, ring.listening, ring.held,
    ring.fresh⟩, ?_, repair.posts⟩
  · intro n mem _
    by_cases here : n = x
    · subst here
      rw [repair.next]
      exact Or.inr ⟨rfl, noOut, noIn, repair.backlog⟩
    · exact ring.linked n mem fun loose => loose.elim here fun fed => fed
  · intro n mem
    by_cases here : n = x
    · subst here
      exact repair.pc_y
    · exact repair.idle n mem here here

end

end DhtRing
