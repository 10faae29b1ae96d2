import DhtRing.Topology

/-!
# The phases of a membership change

A settled ring lets one change at a time begin.  A join goes from the `NET_JOIN` on
its way to the split and from there to the repair of the links around the new
node; a leave goes from the offered range to the range taken, the last poll and
the repair of the links around the node that left.
-/

set_option autoImplicit false

namespace DhtRing

/-! ## Things on their way -/

section

variable {ι α : Type*} [DecidableEq ι]

/-- What a list of things on their way, in the order of sending, leaves at each
place. -/
def post (posts : List (ι × α)) : ι → List α := fun loc =>
  posts.filterMap fun entry => if entry.1 = loc then some entry.2 else none

@[simp] theorem post_nil (loc : ι) : post ([] : List (ι × α)) loc = [] := rfl

theorem post_cons (loc other : ι) (thing : α) (posts : List (ι × α)) :
    post ((loc, thing) :: posts) other =
      if loc = other then thing :: post posts other else post posts other := by
  unfold post
  rw [List.filterMap_cons]
  by_cases here : loc = other
  · simp [here]
  · simp [here]

theorem mem_post {posts : List (ι × α)} {loc : ι} {thing : α} :
    thing ∈ post posts loc ↔ (loc, thing) ∈ posts := by
  constructor
  · intro mem
    obtain ⟨entry, listed, eq⟩ := List.mem_filterMap.mp mem
    split at eq
    · rename_i here
      cases eq
      exact here ▸ listed
    · cases eq
  · intro mem
    exact List.mem_filterMap.mpr ⟨_, mem, if_pos rfl⟩

theorem post_of_not_mem {posts : List (ι × α)} {loc : ι}
    (nowhere : ∀ entry ∈ posts, entry.1 ≠ loc) : post posts loc = [] := by
  rw [List.eq_nil_iff_forall_not_mem]
  intro thing mem
  exact nowhere _ (mem_post.mp mem) rfl

end

/-! ## Two sides of a broken link -/

/-- How far the node `x` is on the way to its successor: it waits for its predecessor
`w`, or for its `NET_JOIN_RESPONSE`; its successor has left; it has connected; or it
is alone. -/
inductive Upper where
  | accepting (w : Addr) (c : Conn) (rangeStart rangeEnd : UInt8)
  | receiving (c : Conn) (rangeStart rangeEnd : UInt8)
  | orphan (c : Conn)
  | connected (c : Conn)
  | alone

/-- How far the node `y` is on the way to its predecessor: the old one has said
goodbye, it waits for the new one, or it is alone. -/
inductive Lower where
  | closing (c : Conn)
  | waiting
  | alone

def Upper.pc : Upper → Pc
  | .accepting _ _ _ _ => .q7Accept
  | .receiving _ _ _ => .q7Receive
  | _ => .q6

def Upper.posts (y : Addr) : Upper → List (Loc × Pdu)
  | .accepting _ c rangeStart rangeEnd => [(.up c, .netJoinResponse y rangeStart rangeEnd)]
  | .receiving c rangeStart rangeEnd => [(.up c, .netJoinResponse y rangeStart rangeEnd)]
  | .orphan c => [(.down c, .netLeaving y)]
  | _ => []

def Upper.waits : Upper → List Conn
  | .connected c => [c]
  | _ => []

def Upper.feeds : Upper → Addr → Prop
  | .accepting w _ _ _, n => n = w
  | _, _ => False

def Upper.Ok (T : Topology) (plan : Plan) (x y : Addr) : Upper → Prop
  | .accepting w c rangeStart rangeEnd =>
      x ≠ y ∧ plan.Member w ∧ plan.next w = x ∧ T.Out w c x ∧ T.NoIn x ∧ T.NoOut x ∧
        T.backlog x = [c] ∧ T.shut (.down c) = false ∧ rangeStart.toNat = plan.lo x ∧
        rangeEnd.toNat = plan.hi x
  | .receiving c rangeStart rangeEnd =>
      x ≠ y ∧ T.In x c ∧ T.NoOut x ∧ rangeStart.toNat = plan.lo x ∧ rangeEnd.toNat = plan.hi x
  | .orphan c => T.Out x c c.target ∧ T.pc c.target = .exited true
  | .connected c => x ≠ y ∧ T.Out x c y ∧ T.shut (.down c) = false
  | .alone => x = y ∧ T.NoOut x

def Lower.pc : Lower → Pc
  | .waiting => .q6Accept
  | _ => .q6

def Lower.posts : Lower → List (Loc × Pdu)
  | .closing c => [(.up c, .netCloseConnection)]
  | _ => []

def Lower.Ok (T : Topology) (x y : Addr) : Lower → Prop
  | .closing c =>
      T.In y c ∧ (T.pc c.source = .exited true ∨ (T.wiring c.source).fdsSuccessor ≠ some c)
  | .waiting => x ≠ y ∧ T.NoIn y
  | .alone => x = y ∧ T.NoIn y

/-! ## Phases -/

structure Between (T : Topology) (plan : Plan) (l p s : Addr) (c c' : Conn) : Prop where
  prev : plan.Member p
  other : p ≠ l
  other' : l ≠ s
  out_p : T.Out p c l
  in_l : T.In l c
  out_l : T.Out l c' s
  in_s : T.In s c'
  backlog_l : T.backlog l = []
  backlog_s : T.backlog s = []

section

variable (T : Topology) (control : Loc → List Pdu) (plan : Plan)

structure Idle : Prop where
  ring : Ring T plan (fun _ => False) (fun _ => False)
  idle : ∀ n, plan.Member n → T.pc n = .q6
  posts : control = post []

structure Joining (j a : Addr) (loc : Loc) (maxSpan : UInt8) (max : Addr) : Prop where
  ring : Ring T plan (fun _ => False) (· = j)
  fresh : ¬ plan.Member j
  port : j.port ≠ 0
  idle : ∀ n, plan.Member n → T.pc n = .q6
  pc : T.pc j = .q7Accept
  noOut : T.NoOut j
  noIn : T.NoIn j
  backlog : T.backlog j = []
  reader : plan.Member a
  reads : loc = .udp a ∨ ∃ c, T.In a c ∧ loc = .up c
  named : (max = ⟨0, 0⟩ ∧ maxSpan = 0) ∨ (plan.Member max ∧ plan.lo max < plan.hi max)
  posts : control = post [(loc, .netJoin j maxSpan max)]

structure Offered (l p s : Addr) (c c' : Conn) : Prop where
  ring : Ring T plan (fun _ => False) (fun _ => False)
  between : Between T plan l p s c c'
  next_p : plan.next p = l
  next_l : plan.next l = s
  idle : ∀ n, plan.Member n → n ≠ l → T.pc n = .q6
  pc : T.pc l = .awaitResponse
  posts : control =
    post [(if (T.wiring l).rangeStart = 0 then .up c' else .down c,
      .netNewRange (T.wiring l).rangeStart (T.wiring l).rangeEnd)]

structure Taken (l p s : Addr) (c c' : Conn) : Prop where
  ring : Ring T plan (· = p) (· = l)
  gone : ¬ plan.Member l
  between : Between T plan l p s c c'
  next_p : plan.next p = s
  idle : ∀ n, plan.Member n → T.pc n = .q6
  pc : T.pc l = .awaitResponse
  posts : control =
    post [(if (T.wiring l).rangeStart = 0 then .down c' else .up c, .netNewRangeResponse)]

structure Polling (l p s : Addr) (c c' : Conn) (i : FdsIndex) : Prop where
  ring : Ring T plan (· = p) (· = l)
  gone : ¬ plan.Member l
  between : Between T plan l p s c c'
  next_p : plan.next p = s
  idle : ∀ n, plan.Member n → T.pc n = .q6
  pc : T.pc l = .lastPoll i s
  range : (T.wiring l).rangeStart = 255 ∧ (T.wiring l).rangeEnd = 255
  posts : control = post []

structure Repair (x y : Addr) (upper : Upper) (lower : Lower) : Prop where
  ring : Ring T plan (fun n => n = x ∨ upper.feeds n) (fun _ => False)
  member : plan.Member x
  next : plan.next x = y
  idle : ∀ n, plan.Member n → n ≠ x → n ≠ y → T.pc n = .q6
  pc_x : x ≠ y → T.pc x = upper.pc
  pc_y : T.pc y = lower.pc
  upper_ok : upper.Ok T plan x y
  lower_ok : lower.Ok T x y
  backlog : T.backlog y = upper.waits
  posts : control = post (upper.posts y ++ lower.posts)

end

end DhtRing
