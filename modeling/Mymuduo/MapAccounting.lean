import Mathlib
import Mymuduo.Foundation.Directory
import Mymuduo.Foundation.Machine
import Mymuduo.ConnectionMap

namespace Mymuduo

open Foundation.Machine Foundation.Directory

namespace ConnectionMap

variable (m : ConnectionMap)

/-- The map holds the open connections, each under its own name. -/
def Exact : Prop := Lists m.opened id (fun conn _ ↦ some conn) m.connections_

/-- The step keeps the map exact, replaces no open connection, and erases at most the
entry of the connection that it removes. -/
def Accounts (m : ConnectionMap) (a : Act) : Prop :=
  ∀ m', m.step a = some m' → m'.Exact ∧
    match a with
    | .newConnection => ∀ conn, m.connections_ (m.connName m.nextConnId_) = some conn →
        m.opened conn = none
    | .removeConnectionInLoop conn => ∀ name other, m'.connections_ name = some other ↔
        m.connections_ name = some other ∧ other ≠ conn

/-- No connection is open whose number differs by a multiple of 2 ^ 32 from that of
the connection accepted or removed. -/
def Spaced (m : ConnectionMap) : Act → Prop
  | .newConnection => ∀ conn, (m.opened conn).isSome → conn % 2 ^ 32 ≠ m.accepted % 2 ^ 32
  | .removeConnectionInLoop conn => conn < m.accepted →
      ∀ other, (m.opened other).isSome → other % 2 ^ 32 = conn % 2 ^ 32 → other = conn

structure Numbered (m : ConnectionMap) : Prop where
  next : m.nextConnId_ = BitVec.ofNat 32 (m.accepted + 1)
  names : ∀ conn < m.accepted, m.names conn = m.connName (BitVec.ofNat 32 (conn + 1))
  opened : ∀ conn name, m.opened conn = some name → conn < m.accepted ∧ name = m.names conn

variable {m} {m' : ConnectionMap} {a : Act}

theorem connName_inj {i j : BitVec 32} : m.connName i = m.connName j ↔ i = j := by
  rw [connName, connName, String.append_right_inj, Int.toString_eq_repr, Int.toString_eq_repr,
    Int.repr_inj, BitVec.toInt_inj]

theorem ofNat_succ_inj {i j : ℕ} :
    BitVec.ofNat 32 (i + 1) = BitVec.ofNat 32 (j + 1) ↔ i % 2 ^ 32 = j % 2 ^ 32 := by
  rw [← BitVec.toNat_inj, BitVec.toNat_ofNat, BitVec.toNat_ofNat]
  omega

theorem ofServer_exact (name ipPort : String) : (ofServer name ipPort).Exact := lists_empty

theorem ofServer_numbered (name ipPort : String) : (ofServer name ipPort).Numbered :=
  ⟨rfl, by simp [ofServer], by simp [ofServer]⟩

namespace Numbered

theorem step (h : m.Numbered) (hm : m.step a = some m') : m'.Numbered := by
  obtain ⟨hnext, hnames, hopened⟩ := h
  cases a with
  | newConnection =>
    obtain rfl : m.newConnection = m' := Option.some.inj hm
    refine ⟨?_, ?_, ?_⟩
    · simp only [newConnection, hnext]
      apply BitVec.eq_of_toNat_eq
      simp
    · intro conn hconn
      simp only [newConnection] at hconn ⊢
      by_cases hc : conn = m.accepted
      · rw [hc, Function.update_self, hnext]
        rfl
      · rw [Function.update_of_ne hc, hnames conn (by omega)]
        rfl
    · intro conn name hconn
      simp only [newConnection] at hconn ⊢
      by_cases hc : conn = m.accepted
      · subst hc
        rw [Function.update_self, Option.some.injEq] at hconn
        rw [Function.update_self]
        exact ⟨by omega, hconn.symm⟩
      · rw [Function.update_of_ne hc] at hconn ⊢
        have hold := hopened conn name hconn
        exact ⟨by omega, hold.2⟩
  | removeConnectionInLoop c =>
    simp only [ConnectionMap.step, Option.ite_none_right_eq_some, Option.some.injEq] at hm
    obtain ⟨-, rfl⟩ := hm
    refine ⟨hnext, hnames, ?_⟩
    intro conn name hconn
    apply hopened
    simp only [removeConnectionInLoop] at hconn
    by_cases hc : conn = c
    · simp [hc] at hconn
    · rwa [Function.update_of_ne hc] at hconn

theorem names_inj (h : m.Numbered) {i j : ℕ} (hi : i < m.accepted) (hj : j < m.accepted) :
    m.names i = m.names j ↔ i % 2 ^ 32 = j % 2 ^ 32 := by
  rw [h.names i hi, h.names j hj, connName_inj, ofNat_succ_inj]

theorem names_next (h : m.Numbered) {i : ℕ} (hi : i < m.accepted) :
    m.names i = m.connName m.nextConnId_ ↔ i % 2 ^ 32 = m.accepted % 2 ^ 32 := by
  rw [h.names i hi, h.next, connName_inj, ofNat_succ_inj]

theorem isSome_iff (h : m.Numbered) {conn : ℕ} :
    (m.opened conn).isSome ↔ m.opened conn = some (m.names conn) := by
  constructor
  · intro hsome
    obtain ⟨name, hname⟩ := Option.isSome_iff_exists.mp hsome
    rw [hname, (h.opened conn name hname).2]
  · intro heq
    simp [heq]

theorem lt (h : m.Numbered) {conn : ℕ} (hsome : (m.opened conn).isSome) : conn < m.accepted :=
  (h.opened conn _ (h.isSome_iff.mp hsome)).1

theorem newest (h : m.Numbered) : m.opened m.accepted = none := by
  rw [← Option.not_isSome_iff_eq_none]
  intro hsome
  exact absurd (h.lt hsome) (Nat.lt_irrefl _)

end Numbered

theorem Exact.get (h : m.Exact) {conn : ℕ} {name : String} (ho : m.opened conn = some name) :
    m.connections_ name = some conn := Lists.get h (Lists.distinct h) ho

theorem Exact.opened (h : m.Exact) {conn : ℕ} {name : String} (hc : m.connections_ name = some conn) :
    m.opened conn = some name := by
  obtain ⟨p, o, ho, rfl, he⟩ := (h name conn).mp hc
  obtain rfl := Option.some.inj he
  exact ho

theorem accounts_newConnection (h : m.Exact) (hn : m.Numbered) :
    m.Accounts .newConnection ↔ m.Spaced .newConnection := by
  constructor
  · intro hG conn hsome hmod
    have hname := (hn.names_next (hn.lt hsome)).mpr hmod
    have hget := h.get (hn.isSome_iff.mp hsome)
    rw [hname] at hget
    have hnone := (hG _ rfl).2 conn hget
    simp [hnone] at hsome
  · intro hH m' hm
    obtain rfl : m.newConnection = m' := Option.some.inj hm
    have hfree : ∀ conn name, m.opened conn = some name → id name ≠ id (m.connName m.nextConnId_) := by
      intro conn name ho hname
      obtain ⟨hlt, rfl⟩ := hn.opened conn name ho
      exact hH conn (by simp [ho]) ((hn.names_next hlt).mp hname)
    refine ⟨Lists.add h hn.newest hfree, ?_⟩
    intro conn hconn
    exact absurd rfl (hfree conn _ (h.opened hconn))

theorem accounts_removeConnectionInLoop (h : m.Exact) (hn : m.Numbered) (c : ℕ) :
    m.Accounts (.removeConnectionInLoop c) ↔ m.Spaced (.removeConnectionInLoop c) := by
  have hstep : ∀ {m'}, m.step (.removeConnectionInLoop c) = some m' ↔
      c < m.accepted ∧ m.removeConnectionInLoop c = m' := by
    intro m'
    simp only [step, Option.ite_none_right_eq_some, Option.some.injEq]
  constructor
  · intro hG hc other hsome hmod
    by_contra hne
    have hname := (hn.names_inj (hn.lt hsome) hc).mpr hmod
    have hget := h.get (hn.isSome_iff.mp hsome)
    have hkept := ((hG _ (hstep.mpr ⟨hc, rfl⟩)).2 _ other).mpr ⟨hget, hne⟩
    simp [removeConnectionInLoop, hname] at hkept
  · intro hH m' hm
    obtain ⟨hc, rfl⟩ := hstep.mp hm
    have hother : ∀ other, m.connections_ (m.names c) = some other → other = c := by
      intro other hget
      have ho := h.opened hget
      have hsome : (m.opened other).isSome := by simp [ho]
      have hname : m.names other = m.names c := (hn.opened other _ ho).2.symm
      exact hH hc other hsome ((hn.names_inj (hn.lt hsome) hc).mp hname)
    refine ⟨?_, ?_⟩
    · refine Lists.update h ?_ ?_ ?_
      · intro name ho
        exact (hn.opened c name ho).2
      · intro name ho
        simp at ho
      · intro other name hne ho hname
        have hget := h.get ho
        rw [show name = m.names c from hname] at hget
        exact hne (hother other hget)
    · intro name other
      simp only [removeConnectionInLoop]
      by_cases hname : name = m.names c
      · subst hname
        rw [Function.update_self]
        constructor
        · intro hno
          simp at hno
        · intro hget
          exact absurd (hother other hget.1) hget.2
      · rw [Function.update_of_ne hname]
        constructor
        · intro hget
          refine ⟨hget, ?_⟩
          intro hoc
          subst hoc
          exact hname (hn.opened other name (h.opened hget)).2
        · intro hget
          exact hget.1

theorem accounts_iff (h : m.Exact) (hn : m.Numbered) : m.Accounts a ↔ m.Spaced a := by
  cases a with
  | newConnection => exact accounts_newConnection h hn
  | removeConnectionInLoop c => exact accounts_removeConnectionInLoop h hn c

/-- The map accounts for the connections in exactly the runs in which no connection
stays open while 2 ^ 32 others are accepted. -/
theorem map_accounts {name ipPort : String} {as : List Act} :
    Along step Accounts (ofServer name ipPort) as ↔ Along step Spaced (ofServer name ipPort) as :=
  along_congr (I := fun m ↦ m.Exact ∧ m.Numbered)
    (fun _ _ m' hI hG hm ↦ ⟨(hG m' hm).1, hI.2.step hm⟩) (fun _ _ hI ↦ accounts_iff hI.1 hI.2)
    ⟨ofServer_exact name ipPort, ofServer_numbered name ipPort⟩

def rounds : ℕ → List Act
  | 0 => [.newConnection]
  | n + 1 => rounds n ++ [.newConnection, .removeConnectionInLoop (n + 1)]

theorem rounds_run (name ipPort : String) (n : ℕ) :
    ∃ m, run step (ofServer name ipPort) (rounds n) = some m ∧ m.accepted = n + 1 ∧
      (m.opened 0).isSome := by
  induction n with
  | zero => exact ⟨_, rfl, rfl, rfl⟩
  | succ n ih =>
    obtain ⟨m, hm, hacc, hopen⟩ := ih
    refine ⟨m.newConnection.removeConnectionInLoop (n + 1), ?_, ?_, ?_⟩
    · rw [rounds, run_append]
      refine ⟨m, hm, ?_⟩
      simp [run, step, newConnection, hacc]
    · simp [newConnection, removeConnectionInLoop, hacc]
    · simpa [newConnection, removeConnectionInLoop, hacc] using hopen

/-- The connection accepted after 2 ^ 32 others takes the entry of the first one. -/
theorem not_map_accounts :
    ¬ ∀ as, Along step Accounts (ofServer "EchoServer" "127.0.0.1:8000") as := by
  intro h
  obtain ⟨n, hlen⟩ : ∃ n, n + 1 = 2 ^ 32 := ⟨2 ^ 32 - 1, by norm_num⟩
  obtain ⟨m, hm, hacc, hopen⟩ := rounds_run "EchoServer" "127.0.0.1:8000" n
  obtain ⟨hbefore, hlast⟩ := (h (rounds n ++ [.newConnection])).append hm
  obtain ⟨hexact, hn⟩ : m.Exact ∧ m.Numbered := run_invariant_along
    (I := fun m ↦ m.Exact ∧ m.Numbered) (fun _ _ m' hI hG hm ↦ ⟨(hG m' hm).1, hI.2.step hm⟩)
    ⟨ofServer_exact _ _, ofServer_numbered _ _⟩ hbefore hm
  have hspaced := (accounts_newConnection hexact hn).mp hlast.1
  exact hspaced 0 hopen (by omega)

end ConnectionMap

end Mymuduo
