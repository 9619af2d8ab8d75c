import Mymuduo.TcpServer

namespace Mymuduo

variable {T : Type}

def Task.conn : Task → Option ℕ
  | .connectEstablished c | .connectDestroyed c | .removeConnectionInLoop c => some c
  | .foreign _ => none

def callsIn (t : T) (fs : List Task) : List (ℕ × T) :=
  fs.filterMap fun | .connectDestroyed c => some (c, t) | _ => none

theorem mem_callsIn {t u : T} {fs : List Task} {c : ℕ} :
    (c, u) ∈ callsIn t fs ↔ .connectDestroyed c ∈ fs ∧ u = t := by
  simp only [callsIn, List.mem_filterMap]
  constructor
  · rintro ⟨f, hf, he⟩
    cases f <;> simp at he
    next d =>
      obtain ⟨rfl, rfl⟩ := he
      exact ⟨hf, rfl⟩
  · rintro ⟨hf, rfl⟩
    exact ⟨_, hf, rfl⟩

theorem count_callsIn (t : T) (fs : List Task) (c : ℕ) :
    ((callsIn t fs).map Prod.fst).count c = fs.count (.connectDestroyed c) := by
  induction fs with
  | nil => rfl
  | cons f fs ih =>
    cases f with
    | connectDestroyed d =>
      have hcons : callsIn t (.connectDestroyed d :: fs) = (d, t) :: callsIn t fs := rfl
      rw [hcons, List.map_cons, List.count_cons, List.count_cons, ih]
      simp
    | _ =>
      rw [List.count_cons_of_ne (by simp), ← ih]
      rfl

namespace TcpServer

variable (s : TcpServer T)

/-- The calls of `connectDestroyed` that wait for connection `c` in its loop. -/
def awaiting (c : ℕ) : ℕ := (s.loops (s.getLoop c)).waiting.count (.connectDestroyed c)

def calls (c : ℕ) : ℕ := (s.executed.map Prod.fst).count c

def left : List ℕ :=
  match s.destructor with
  | .alive => s.connections_
  | .iterate items | .leaving _ items => items
  | .calling c items => c :: items
  | .thread _ | .joining _ | .done => []

/-- The connections that the server must tear down. -/
def watched : List ℕ := if s.destructor = .alive then s.connections_ else s.doomed

variable {s} {s' : TcpServer T}

/-- Every connection is in one place: with the destructor, in the queue of its own
loop, or through with `connectDestroyed`. -/
structure Balanced (s : TcpServer T) : Prop where
  control : ∀ i, (s.loops i).Control
  named : ∀ i, ∀ f ∈ (s.loops i).waiting, ∀ c ∈ f.conn, c < s.nextConnId_
  placed : ∀ i c, .connectDestroyed c ∈ (s.loops i).waiting → i = s.getLoop c
  home : ∀ c t, (c, t) ∈ s.executed → c < s.nextConnId_ ∧ t = s.threadId (s.getLoop c)
  known : ∀ c ∈ s.watched, c < s.nextConnId_
  balance : ∀ c ∈ s.watched, s.left.count c + s.awaiting c + s.calls c = 1

theorem threadId_congr (h : s'.loops = s.loops) : s'.threadId = s.threadId := by
  funext i
  rw [threadId, threadId, h]

theorem Balanced.stay (hs : s.Balanced) (h : s'.loops = s.loops) (hget : s'.getLoop = s.getLoop)
    (hid : s'.nextConnId_ = s.nextConnId_) {x : List (ℕ × T)} (hex : s'.executed = s.executed ++ x)
    (hx : ∀ c t, (c, t) ∈ x → c < s.nextConnId_ ∧ t = s.threadId (s.getLoop c))
    (hleft : ∀ c ∈ s'.watched, c ∈ s.watched ∧
      s'.left.count c + (x.map Prod.fst).count c = s.left.count c) : s'.Balanced := by
  have hthread := threadId_congr h
  refine ⟨?_, ?_, ?_, fun c t ht ↦ ?_, fun c hc ↦ ?_, fun c hc ↦ ?_⟩
  · rw [h]
    exact hs.control
  · rw [h, hid]
    exact hs.named
  · rw [h, hget]
    exact hs.placed
  · rw [hid, hget, hthread]
    rw [hex, List.mem_append] at ht
    exact ht.elim (hs.home c t) (hx c t)
  · rw [hid]
    exact hs.known c (hleft c hc).1
  · have hold := hs.balance c (hleft c hc).1
    have hcount := (hleft c hc).2
    have haw : s'.awaiting c = s.awaiting c := by
      rw [awaiting, awaiting, hget, h]
    rw [calls] at hold ⊢
    rw [hex, List.map_append, List.count_append, haw]
    omega

theorem mem_appended {a : EventLoop.Act T Task} {f : Task} : f ∈ EventLoop.appended [a] ↔ ∃ t, a = .append t f := by
  cases a <;> simp [EventLoop.appended, eq_comm]

theorem accepted_getLoop_of_ne {c : ℕ} (hc : c ≠ s.nextConnId_) :
    s.accepted.getLoop c = s.getLoop c :=
  Function.update_of_ne hc _ _

theorem accepted_getLoop_self : s.accepted.getLoop s.nextConnId_ = s.getNextLoop.1 :=
  Function.update_self ..

theorem Balanced.accepted (hs : s.Balanced) (hd : s.destructor = .alive) : s.accepted.Balanced := by
  have hget : ∀ c, c < s.nextConnId_ → s.accepted.getLoop c = s.getLoop c := by
    exact fun c hc ↦ accepted_getLoop_of_ne (Nat.ne_of_lt hc)
  have hwatched : s.watched = s.connections_ := by simp [watched, hd]
  have hleft : s.left = s.connections_ := by simp [left, hd]
  have hwatched' : s.accepted.watched = s.connections_ ++ [s.nextConnId_] := by
    simp [watched, TcpServer.accepted, hd]
  have hleft' : s.accepted.left = s.connections_ ++ [s.nextConnId_] := by
    simp [left, TcpServer.accepted, hd]
  refine ⟨hs.control, fun i f hf c hc ↦ ?_, fun i c hin ↦ ?_, fun c t ht ↦ ?_, fun c hc ↦ ?_,
    fun c hc ↦ ?_⟩
  · exact Nat.lt_succ_of_lt (hs.named i f hf c hc)
  · rw [hget c (hs.named i _ hin c rfl)]
    exact hs.placed i c hin
  · obtain ⟨hlt, ht'⟩ := hs.home c t ht
    rw [hget c hlt]
    exact ⟨Nat.lt_succ_of_lt hlt, ht'⟩
  · rw [hwatched', ← hwatched, List.mem_append, List.mem_singleton] at hc
    rcases hc with hc | rfl
    · exact Nat.lt_succ_of_lt (hs.known c hc)
    · exact Nat.lt_succ_self _
  · have hcalls : s.accepted.calls c = s.calls c := rfl
    rw [hcalls, hleft', List.count_append]
    rw [hwatched', ← hwatched, List.mem_append, List.mem_singleton] at hc
    rcases hc with hc | rfl
    · have hlt := hs.known c hc
      have hbal := hs.balance c hc
      have haw : s.accepted.awaiting c = s.awaiting c := by
        rw [awaiting, hget c hlt]
        rfl
      have hzero : [s.nextConnId_].count c = 0 :=
        List.count_eq_zero.mpr (by simpa using Nat.ne_of_lt hlt)
      rw [hleft] at hbal
      rw [haw, hzero]
      exact hbal
    · -- a number that was not given before stands nowhere
      have hmap : s.connections_.count s.nextConnId_ = 0 := by
        refine List.count_eq_zero.mpr fun hin ↦ ?_
        exact absurd (hs.known _ (hwatched ▸ hin)) (Nat.lt_irrefl _)
      have haw : s.accepted.awaiting s.nextConnId_ = 0 := by
        refine List.count_eq_zero.mpr fun hin ↦ ?_
        exact absurd (hs.named _ _ hin _ rfl) (Nat.lt_irrefl _)
      have hrun : s.calls s.nextConnId_ = 0 := by
        refine List.count_eq_zero.mpr fun hin ↦ ?_
        obtain ⟨⟨c, t⟩, ht, rfl⟩ := List.mem_map.mp hin
        exact absurd (hs.home _ t ht).1 (Nat.lt_irrefl _)
      simp [hmap, haw, hrun]

theorem Balanced.destroy (hs : s.Balanced) (hd : s.destructor = .alive) {items : List ℕ}
    (hp : items.Perm s.connections_) :
    Balanced { s with destructor := .iterate items, doomed := items } := by
  refine hs.stay rfl rfl rfl (List.append_nil _).symm (by simp) fun c hc ↦ ?_
  have hmem : c ∈ items := by simpa [watched] using hc
  refine ⟨by simpa [watched, hd] using hp.subset hmem, ?_⟩
  simp [left, hd, hp.count_eq]

theorem Balanced.unqueued (hs : s.Balanced) {c : ℕ} (hw : c ∈ s.watched) (hl : c ∈ s.left) (i : Option ℕ) :
    .connectDestroyed c ∉ (s.loops i).waiting := by
  intro hin
  obtain rfl := hs.placed i c hin
  have hbal := hs.balance c hw
  have hleft : 0 < s.left.count c := List.count_pos_iff.mpr hl
  have hwait : 0 < s.awaiting c := List.count_pos_iff.mpr hin
  omega

variable [DecidableEq T] {i : Option ℕ} {a : EventLoop.Act T Task} {l : EventLoop T Task}

theorem threadId_update (hl : (s.loops i).step a = some l)
    (h : s'.loops = Function.update s.loops i l) : s'.threadId = s.threadId := by
  funext j
  rw [threadId, threadId, h]
  by_cases hj : j = i
  · rw [hj, Function.update_self]
    exact EventLoop.threadId_step hl
  · rw [Function.update_of_ne hj]

theorem Balanced.awaiting_update (hs : s.Balanced) (hl : (s.loops i).step a = some l)
    (h : s'.loops = Function.update s.loops i l) (hget : s'.getLoop = s.getLoop) {c : ℕ}
    (happ : .connectDestroyed c ∈ EventLoop.appended [a] → i = s.getLoop c) :
    (EventLoop.executed [a]).count (.connectDestroyed c) + s'.awaiting c =
      s.awaiting c + (EventLoop.appended [a]).count (.connectDestroyed c) := by
  have hcons := congrArg (List.count (.connectDestroyed c)) (EventLoop.step_conserves (hs.control i) hl)
  rw [List.count_append, List.count_append] at hcons
  by_cases hi : i = s.getLoop c
  · subst hi
    rw [awaiting, awaiting, hget, h, Function.update_self]
    exact hcons
  · have hzero : (EventLoop.appended [a]).count (.connectDestroyed c) = 0 :=
      List.count_eq_zero.mpr fun hin ↦ hi (happ hin)
    have hnone : (s.loops i).waiting.count (.connectDestroyed c) = 0 :=
      List.count_eq_zero.mpr fun hin ↦ hi (hs.placed i c hin)
    rw [awaiting, awaiting, hget, h, Function.update_of_ne (Ne.symm hi)]
    omega

theorem Balanced.move (hs : s.Balanced) (hl : (s.loops i).step a = some l)
    (h : s'.loops = Function.update s.loops i l) (hget : s'.getLoop = s.getLoop)
    (hid : s'.nextConnId_ = s.nextConnId_)
    (hname : ∀ f ∈ EventLoop.appended [a], ∀ c ∈ f.conn, c < s.nextConnId_)
    (happ : ∀ c, .connectDestroyed c ∈ EventLoop.appended [a] → i = s.getLoop c)
    (hex : s'.executed = s.executed ++ callsIn (s.threadId i) (EventLoop.executed [a]))
    (hleft : ∀ c ∈ s'.watched, c ∈ s.watched ∧
      s'.left.count c + (EventLoop.appended [a]).count (.connectDestroyed c) = s.left.count c) :
    s'.Balanced := by
  have hthread := threadId_update hl h
  have hwait : ∀ j, ∀ f ∈ (s'.loops j).waiting,
      f ∈ (s.loops j).waiting ∨ j = i ∧ f ∈ EventLoop.appended [a] := by
    intro j f hf
    rw [h] at hf
    by_cases hj : j = i
    · subst hj
      rw [Function.update_self] at hf
      exact (EventLoop.mem_waiting_step (hs.control j) hl hf).imp id fun hf ↦ ⟨rfl, hf⟩
    · rw [Function.update_of_ne hj] at hf
      exact Or.inl hf
  refine ⟨fun j ↦ ?_, fun j f hf c hc ↦ ?_, fun j c hin ↦ ?_, fun c t ht ↦ ?_, fun c hc ↦ ?_,
    fun c hc ↦ ?_⟩
  · rw [h]
    by_cases hj : j = i
    · rw [hj, Function.update_self]
      exact (hs.control i).step hl
    · rw [Function.update_of_ne hj]
      exact hs.control j
  · rw [hid]
    rcases hwait j f hf with hf | ⟨-, hf⟩
    · exact hs.named j f hf c hc
    · exact hname f hf c hc
  · rw [hget]
    rcases hwait j _ hin with hin | ⟨rfl, hin⟩
    · exact hs.placed j c hin
    · exact happ c hin
  · rw [hid, hget, hthread]
    rw [hex, List.mem_append] at ht
    rcases ht with ht | ht
    · exact hs.home c t ht
    · obtain ⟨hin, rfl⟩ := mem_callsIn.mp ht
      have hold : .connectDestroyed c ∈ (s.loops i).waiting ++ EventLoop.appended [a] := by
        rw [← EventLoop.step_conserves (hs.control i) hl]
        exact List.mem_append_left _ hin
      rcases List.mem_append.mp hold with hold | hold
      · exact ⟨hs.named i _ hold c rfl, by rw [← hs.placed i c hold]⟩
      · exact ⟨hname _ hold c rfl, by rw [← happ c hold]⟩
  · rw [hid]
    exact hs.known c (hleft c hc).1
  · have hold := hs.balance c (hleft c hc).1
    have hmove := hs.awaiting_update hl h hget (happ c)
    have hcount := (hleft c hc).2
    rw [calls] at hold ⊢
    rw [hex, List.map_append, List.count_append, count_callsIn]
    omega

theorem allows_append {t : T} {f : Task} (h : s.allows i (.append t f) = true) :
    (∀ c, f ≠ .connectDestroyed c) ∧ ∀ c ∈ f.conn, c < s.nextConnId_ := by
  cases f with
  | removeConnectionInLoop c =>
    simp only [allows, Bool.and_eq_true, decide_eq_true_eq] at h
    refine ⟨by simp, fun d hd ↦ ?_⟩
    obtain rfl : c = d := by simpa [Task.conn] using hd
    exact h.1.1.2
  | foreign k => simp [Task.conn]
  | _ => simp [allows] at h

theorem Balanced.plain (hs : s.Balanced) (hl : (s.loops i).step a = some l)
    (hname : ∀ t f, a = .append t f → ∀ c ∈ f.conn, c < s.nextConnId_)
    (happ : ∀ t c, a ≠ .append t (.connectDestroyed c))
    (hrun : ∀ c, a ≠ .beginFunctor (.connectDestroyed c)) : (s.setLoop i l).Balanced := by
  have hnone : ∀ c, .connectDestroyed c ∉ EventLoop.appended [a] := by
    intro c hc
    obtain ⟨t, ht⟩ := mem_appended.mp hc
    exact happ t c ht
  refine hs.move hl rfl rfl rfl (fun f hf c hc ↦ ?_) (fun c hc ↦ absurd hc (hnone c)) ?_
    (fun c hc ↦ ⟨hc, ?_⟩)
  · obtain ⟨t, ht⟩ := mem_appended.mp hf
    exact hname t f ht c hc
  · have hcalls : callsIn (s.threadId i) (EventLoop.executed [a]) = [] := by
      cases a with
      | beginFunctor f =>
        cases f with
        | connectDestroyed c => exact absurd rfl (hrun c)
        | _ => rfl
      | _ => rfl
    rw [hcalls, List.append_nil]
    rfl
  · rw [List.count_eq_zero.mpr (hnone c)]
    rfl

theorem Balanced.removed (hs : s.Balanced) {c : ℕ} (hd : s.destructor = .alive) (hc : c < s.nextConnId_)
    (h : Removed c s s') : s'.Balanced := by
  obtain ⟨l, hl⟩ := h
  have hwatched : s.watched = s.connections_ := by simp [watched, hd]
  have hleft : s.left = s.connections_ := by simp [left, hd]
  refine hs.move hl rfl rfl rfl ?_ ?_ (by simp [EventLoop.executed, callsIn, setLoop]) fun x hx ↦ ?_
  · intro f hf d hd
    obtain rfl : f = .connectDestroyed c := by simpa [EventLoop.appended] using hf
    obtain rfl : c = d := by simpa [Task.conn] using hd
    exact hc
  · intro x hx
    obtain rfl : x = c := by simpa [EventLoop.appended] using hx
    rfl
  · have hwatched' : x ∈ s.connections_.erase c := by simpa [watched, setLoop, hd] using hx
    have hin : x ∈ s.watched := hwatched ▸ List.mem_of_mem_erase hwatched'
    have hbal := hs.balance x hin
    have hcount : 0 < (s.connections_.erase c).count x := List.count_pos_iff.mpr hwatched'
    have hne : c ≠ x := by
      rintro rfl
      rw [hleft] at hbal
      rw [List.count_erase_self] at hcount
      omega
    refine ⟨hin, ?_⟩
    simp only [left, setLoop, hd, EventLoop.appended]
    simp [List.count_erase_of_ne hne.symm, hne]

theorem Balanced.destructs (hs : s.Balanced) (hw : ∀ c ∈ s.left, c ∈ s.watched)
    (h : Destructs s s') : s'.Balanced := by
  have hnone : ∀ c t, (c, t) ∈ ([] : List (ℕ × T)) → c < s.nextConnId_ ∧ t = s.threadId (s.getLoop c) := by
    simp
  cases h with
  | next c items hd =>
    refine hs.stay rfl rfl rfl (List.append_nil _).symm hnone fun x hx ↦ ?_
    simp_all [watched, left]
  | call c items hd hin =>
    refine hs.stay rfl rfl rfl rfl (fun x t hx ↦ ?_) fun x hx ↦ ?_
    · simp only [List.mem_singleton, Prod.mk.injEq] at hx
      obtain ⟨rfl, rfl⟩ := hx
      exact ⟨hs.known x (hw x (by simp [left, hd])), hin.symm⟩
    · simp_all [watched, left, List.count_cons]
  | queue c items l hd hin hl =>
    refine hs.move hl rfl rfl rfl ?_ ?_ (by simp [EventLoop.executed, callsIn, setLoop]) fun x hx ↦ ?_
    · intro f hf d hd'
      obtain rfl : f = .connectDestroyed c := by simpa [EventLoop.appended] using hf
      obtain rfl : c = d := by simpa [Task.conn] using hd'
      exact hs.known c (hw c (by simp [left, hd]))
    · intro x hx
      obtain rfl : x = c := by simpa [EventLoop.appended] using hx
      rfl
    · simp_all [watched, left, List.count_cons, EventLoop.appended, setLoop]
  | leave c items hd =>
    refine hs.stay rfl rfl rfl (List.append_nil _).symm hnone fun x hx ↦ ?_
    simp_all [watched, left]
  | threads hd =>
    refine hs.stay rfl rfl rfl (List.append_nil _).symm hnone fun x hx ↦ ?_
    simp_all [watched, left]
  | quit k l hd hk hx hl =>
    refine hs.move hl rfl rfl rfl (by simp [EventLoop.appended]) (by simp [EventLoop.appended])
      (by simp [EventLoop.executed, callsIn, setLoop]) fun x hx ↦ ?_
    simp_all [watched, left, setLoop, EventLoop.appended]
  | join k hd hx =>
    refine hs.stay rfl rfl rfl (List.append_nil _).symm hnone fun x hx ↦ ?_
    rcases hd with hd | hd <;> simp_all [watched, left]
  | finish k hd hk =>
    refine hs.stay rfl rfl rfl (List.append_nil _).symm hnone fun x hx ↦ ?_
    simp_all [watched, left]

end TcpServer

end Mymuduo
