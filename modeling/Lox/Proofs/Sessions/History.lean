import Lox.Proofs.Scoping.Layers
import Lox.Proofs.Sessions.Performing

/-!
# Histories of sessions

A session may go through any number of units: texts that are read, trees that were built by hand,
calls of functions from outside, definitions of globals, new lists of diagnostics, each of them with
or without an error. `Stage.Next` says what may happen next to a session, with the units whose names
were bound in it and the values that were handed out to its host. `Sound` says what holds all the
time: functions are in scopes of their depth, no two units share a site, and the table has for each
unit just what was found in it.
-/
namespace Lox

open Binding (Table resolve)

namespace Session

/-- A value that was handed out before, or one that is no function of a program. -/
def Offered (vs : List Value) (v : Value) : Prop := v ∈ vs ∨ ∀ c, v ≠ .function (.closure c)

/-- A call from outside, on any number of arguments. -/
def invoke (limits : Limits) (f : Function) (arguments : List Value) : Step Value :=
  onMachine (Eval.invoke limits.rounds limits.room f arguments)

/-- A session with the units whose names were bound in it, oldest first, and the values that were
handed out. -/
structure Stage where
  session : Session
  units : List Code
  held : List Value

namespace Stage

/-- What may happen next in a session. A tree may be read or built by hand; its uses need sites that
no other unit has. Once its names are bound it may be interpreted any number of times, whatever was
reported about it. Functions may be called from outside, on any number of arguments. -/
inductive Next (limits : Limits) : Stage → Stage → Prop where
  | read {s us vs} (mode : Mode) (source : String) :
    Next limits ⟨s, us, vs⟩ ⟨behind (Session.read limits mode source) s, us, vs⟩
  | reserve {s us vs next} (h : s.nextSite ≤ next) :
    Next limits ⟨s, us, vs⟩ ⟨{ s with nextSite := next }, us, vs⟩
  | clearDiagnostics {s us vs} :
    Next limits ⟨s, us, vs⟩ ⟨behind Session.clearDiagnostics s, us, vs⟩
  | bindNames {s us vs unit} (hdepth : unit.depth ≤ limits.room) (hnodup : unit.sites.Nodup)
    (hnew : ∀ site ∈ unit.sites, site < s.nextSite ∧ ∀ u ∈ us, site ∉ u.sites) :
    Next limits ⟨s, us, vs⟩ ⟨behind (Session.bindNames limits unit) s, us ++ [unit], vs⟩
  | bindTooDeep {s us vs unit} (hdepth : ¬ unit.depth ≤ limits.room) :
    Next limits ⟨s, us, vs⟩ ⟨behind (Session.bindNames limits unit) s, us, vs⟩
  | interpret {s us vs unit} (h : unit ∈ us) :
    Next limits ⟨s, us, vs⟩ ⟨behind (Session.interpret limits unit) s, us, vs⟩
  | define {s us vs v} (name : String) (h : Offered vs v) :
    Next limits ⟨s, us, vs⟩ ⟨behind (Session.define name v) s, us, vs⟩
  | value {s us vs} (name : String) :
    Next limits ⟨s, us, vs⟩
      ⟨behind (Session.value name) s, us, resultsOf (Session.value name) s ++ vs⟩
  | invoke {s us vs f arguments} (hf : .function f ∈ vs) (ha : ∀ v ∈ arguments, Offered vs v) :
    Next limits ⟨s, us, vs⟩ ⟨behind (invoke limits f arguments) s, us,
      resultsOf (invoke limits f arguments) s ++ vs⟩

/-- Any number of things happen in a session. -/
abbrev Leads (limits : Limits) : Stage → Stage → Prop := Relation.ReflTransGen (Next limits)

/-- A session at its beginning. -/
def first (clock : Clock) (hosts : List HostFunction) : Stage :=
  ⟨Session.start clock hosts, [], []⟩

end Stage

/-- What holds of a session all the time. -/
structure Sound (limits : Limits) (s : Session) (us : List Code) (vs : List Value) : Prop where
  scope : s.machine.scope = Store.global
  layered : StoreLayered us s.machine.store
  held : ∀ v ∈ vs, FunctionLayered us s.machine.store v
  depth : ∀ u ∈ us, u.depth ≤ limits.room
  nodup : ∀ u ∈ us, u.sites.Nodup
  apart : us.Pairwise fun u u' => List.Disjoint u.sites u'.sites
  numbered : ∀ u ∈ us, ∀ site ∈ u.sites, site < s.nextSite
  recorded : ∀ u ∈ us, ∀ site ∈ u.sites, s.machine.table.lookup site =
    (Table.install [] (resolve limits.room u).entries).lookup site
  keys : ∀ site hops, s.machine.table.lookup site = some hops → ∃ u ∈ us, site ∈ u.sites

namespace Sound

variable {limits : Limits} {clock : Clock} {hosts : List HostFunction} {s s' : Session}
  {us : List Code} {vs : List Value}

theorem offered (h : Sound limits s us vs) {v : Value} (hv : Offered vs v) :
    FunctionLayered us s.machine.store v := by
  rcases hv with hv | hplain
  · exact h.held v hv
  · exact fun c hc => absurd hc (hplain c)

/-- What does not concern the machine leaves a session sound. -/
theorem of_machine (h : Sound limits s us vs) (hm : s'.machine = s.machine)
    (hn : s.nextSite ≤ s'.nextSite) : Sound limits s' us vs where
  scope := hm ▸ h.scope
  layered := hm ▸ h.layered
  held := hm ▸ h.held
  depth := h.depth
  nodup := h.nodup
  apart := h.apart
  numbered u hu site hsite := Nat.lt_of_lt_of_le (h.numbered u hu site hsite) hn
  recorded := hm ▸ h.recorded
  keys := hm ▸ h.keys

/-- Evaluation leaves a session sound. -/
theorem of_later (h : Sound limits s us vs) (hl : s.machine.Later s'.machine)
    (hs : StoreLayered us s'.machine.store) (hn : s'.nextSite = s.nextSite) :
    Sound limits s' us vs where
  scope := hl.scope.trans h.scope
  layered := hs
  held v hv := (h.held v hv).later hl.store
  depth := h.depth
  nodup := h.nodup
  apart := h.apart
  numbered := hn ▸ h.numbered
  recorded := hl.table ▸ h.recorded
  keys := hl.table ▸ h.keys

theorem hold (h : Sound limits s us vs) {ws : List Value}
    (hw : ∀ v ∈ ws, FunctionLayered us s.machine.store v) : Sound limits s us (ws ++ vs) :=
  { h with held := fun v hv => (List.mem_append.1 hv).elim (hw v) (h.held v) }

/-- A step that evaluates something leaves a session sound, and so it does its results. -/
theorem onMachine {α : Type} {act : Run α} {Q : Store Value → α → Prop} (h : Sound limits s us vs)
    (hk : (Invariant.layered us).Keeps act s.machine Q) :
    Sound limits (behind (Session.onMachine act) s) us vs ∧
      ∀ a ∈ resultsOf (Session.onMachine act) s,
        Q (behind (Session.onMachine act) s).machine.store a := by
  cases hact : act s.machine with
  | ok a m =>
    obtain ⟨hl, hs, ha⟩ := hk.ok hact
    have hrun : Session.onMachine act s = .ok a { s with machine := m } := by
      simp only [Session.onMachine, hact]
    rw [behind, resultsOf, hrun]
    exact ⟨h.of_later hl hs rfl, by simpa using ha⟩
  | error f m =>
    obtain ⟨hl, hs⟩ := hk.error hact
    have hrun : Session.onMachine act s = .error f { s with machine := m } := by
      simp only [Session.onMachine, hact]
    rw [behind, resultsOf, hrun]
    exact ⟨h.of_later hl hs rfl, by simp⟩

/-- Turning an error into a diagnostic does not concern the machine. -/
theorem reporting {α : Type} {act : Step (Option α)} (h : Sound limits (behind act s) us vs) :
    Sound limits (behind (Session.reporting act) s) us vs := by
  rw [behind] at h
  rw [behind]
  cases hact : act s with
  | ok a s' =>
    rw [hact] at h
    have hrun : Session.reporting act s = .ok a s' := by simp only [Session.reporting, hact]
    rwa [hrun]
  | error f s' =>
    rw [hact] at h
    cases f with
    | error e =>
      have hrun : Session.reporting act s =
          .ok none { s' with diagnostics := s'.diagnostics.add e.diagnostic } := by
        simp only [Session.reporting, hact]
      rw [hrun]
      exact h.of_machine rfl (Nat.le_refl _)
    | abort a =>
      have hrun : Session.reporting act s = .error (.abort a) s' := by
        simp only [Session.reporting, hact]
      rwa [hrun]

theorem start (limits : Limits) (clock : Clock) (hosts : List HostFunction) :
    Sound limits (Session.start clock hosts) [] [] where
  scope := rfl
  layered := by
    have hinitial : StoreLayered [] Store.initial :=
      ⟨by decide, rfl, fun v hv => absurd hv (Store.not_has_initial v)⟩
    exact Machine.start_induction hinitial (fun s host hs => hs.define fun c hc => by cases hc) _ _
  held := nofun
  depth := nofun
  nodup := nofun
  apart := .nil
  numbered := nofun
  recorded := nofun
  keys := nofun

theorem read (h : Sound limits s us vs) (mode : Mode) (source : String) :
    Sound limits (behind (Session.read limits mode source) s) us vs := by
  rw [behind, Session.read]
  split
  · next heq =>
    split at heq <;> cases heq
    next hread => exact h.of_machine rfl (Code.ofSource?_fresh hread).le
  · next heq =>
    split at heq <;> cases heq
    exact h

/-- The entries of a unit are about its own uses. -/
theorem mem_sites_of_lookup {room : Nat} {unit : Code} (hdepth : unit.depth ≤ room)
    (hnodup : unit.sites.Nodup) {site : Site} {hops : Nat}
    (h : (Table.install [] (resolve room unit).entries).lookup site = some hops) :
    site ∈ unit.sites := by
  have hvisited := (Binding.perm_sites_code unit)
  have hentries := (hvisited.nodup_iff.2 hnodup).sublist (Binding.sites_entries_sublist hdepth)
  obtain ⟨e, he, rfl, -⟩ := (Binding.lookup_install_eq_some_iff hentries).1 h
  exact hvisited.subset ((Binding.sites_entries_sublist hdepth).subset (List.mem_map_of_mem he))

/-- The table of a session with the entries of one more unit. -/
theorem lookup_install_or (t : Table) (entries : List Binding.Entry) (site : Site) :
    (t.install entries).lookup site =
      ((Table.install [] entries).lookup site).or (t.lookup site) := by
  have h := Binding.lookup_install t entries.reverse site
  have h' := Binding.lookup_install [] entries.reverse site
  rw [List.reverse_reverse] at h h'
  rw [h, h', List.lookup_nil, Option.or_none]

theorem bindNames (h : Sound limits s us vs) {unit : Code} (hdepth : unit.depth ≤ limits.room)
    (hnodup : unit.sites.Nodup)
    (hnew : ∀ site ∈ unit.sites, site < s.nextSite ∧ ∀ u ∈ us, site ∉ u.sites) :
    Sound limits (behind (Session.bindNames limits unit) s) (us ++ [unit]) vs := by
  have hrun := bindNames_of_le (s := s) hdepth
  have hmachine : (behind (Session.bindNames limits unit) s).machine =
      { s.machine with table := s.machine.table.install (resolve limits.room unit).entries } := by
    rw [behind, hrun]
    rfl
  have hnext : (behind (Session.bindNames limits unit) s).nextSite = s.nextSite := by
    rw [behind, hrun]
    rfl
  have hsub : us ⊆ us ++ [unit] := List.subset_append_left us [unit]
  have hlookup (site : Site) :
      (behind (Session.bindNames limits unit) s).machine.table.lookup site =
        ((Table.install [] (resolve limits.room unit).entries).lookup site).or
          (s.machine.table.lookup site) := by
    rw [hmachine]
    exact lookup_install_or _ _ _
  have hforall {P : Code → Prop} (hus : ∀ u ∈ us, P u) (hunit : P unit) :
      ∀ u ∈ us ++ [unit], P u :=
    List.forall_mem_append.2 ⟨hus, List.forall_mem_singleton.2 hunit⟩
  constructor
  case scope => rw [hmachine]; exact h.scope
  case layered => rw [hmachine]; exact h.layered.mono hsub
  case held => rw [hmachine]; exact fun v hv => (h.held v hv).mono hsub
  case depth => exact hforall h.depth hdepth
  case nodup => exact hforall h.nodup hnodup
  case apart =>
    refine List.pairwise_append.2 ⟨h.apart, List.pairwise_singleton _ _, fun u hu u' hu' => ?_⟩
    obtain rfl := List.mem_singleton.1 hu'
    exact fun site hsite hsite' => (hnew site hsite').2 u hu hsite
  case numbered =>
    rw [hnext]
    exact hforall h.numbered fun site hsite => (hnew site hsite).1
  case recorded =>
    refine hforall (fun u hu site hsite => ?_) fun site hsite => ?_
    · -- The new unit says nothing about the uses of an older one.
      have hnone : (Table.install [] (resolve limits.room unit).entries).lookup site = none := by
        refine Option.eq_none_iff_forall_ne_some.2 fun hops hsome => ?_
        exact (hnew site (mem_sites_of_lookup hdepth hnodup hsome)).2 u hu hsite
      rw [hlookup, hnone, Option.none_or]
      exact h.recorded u hu site hsite
    · have hnone : s.machine.table.lookup site = none := by
        refine Option.eq_none_iff_forall_ne_some.2 fun hops hsome => ?_
        obtain ⟨u, hu, hmem⟩ := h.keys site hops hsome
        exact (hnew site hsite).2 u hu hmem
      rw [hlookup, hnone, Option.or_none]
  case keys =>
    intro site hops hsome
    rw [hlookup] at hsome
    rcases Option.or_eq_some_iff.1 hsome with hunit | ⟨-, hold⟩
    · exact ⟨unit, by simp, mem_sites_of_lookup hdepth hnodup hunit⟩
    · obtain ⟨u, hu, hmem⟩ := h.keys site hops hold
      exact ⟨u, hsub hu, hmem⟩

/-- Of a unit that is too deep, nothing gets into the table. -/
theorem bindTooDeep (h : Sound limits s us vs) {unit : Code}
    (hdepth : ¬ unit.depth ≤ limits.room) :
    Sound limits (behind (Session.bindNames limits unit) s) us vs := by
  rw [behind, bindNames_of_not_le hdepth]
  exact h.of_machine rfl (Nat.le_refl _)

/-- A unit begins in the global scope, where no scope is open. -/
theorem begins (h : Sound limits s us vs) {unit : Code} (hunit : unit ∈ us) :
    (∀ ss, unit = .program ss → ∀ st ∈ ss,
      (Invariant.layered us).node s.machine.store s.machine.scope (.statement st)) ∧
    ∀ e, unit = .expression (some e) →
      (Invariant.layered us).node s.machine.store s.machine.scope (.expression e) := by
  have hdepth : s.machine.store.Depth s.machine.scope 0 := h.scope ▸ Store.depth_global _
  constructor
  · rintro ss rfl st hst
    exact ⟨0, hdepth, _, hunit, false, Binding.among_statements hst false⟩
  · rintro e rfl
    exact ⟨0, hdepth, _, hunit, false, Binding.among_refl _⟩

theorem interpret (h : Sound limits s us vs) {unit : Code} (hunit : unit ∈ us) :
    Sound limits (behind (Session.interpret limits unit) s) us vs := by
  have hk := (Invariant.layered us).keptBy limits.rounds limits.room
  obtain ⟨hprogram, hexpression⟩ := h.begins hunit
  refine reporting (h.onMachine (Q := fun _ _ => True) ?_).1
  match unit with
  | .program ss =>
    exact (hk.executeAll h.layered (hprogram ss rfl)).bind
      fun _ _ _ hs _ => .result hs trivial
  | .expression none => exact .result h.layered trivial
  | .expression (some e) =>
    refine (hk.evaluate e s.machine h.layered (hexpression e rfl)).bind fun v m₁ _ hs₁ _ => ?_
    exact (Invariant.keeps_print hs₁ v.display).bind fun _ _ _ hs₂ _ => .result hs₂ trivial

theorem define (h : Sound limits s us vs) (name : String) {v : Value} (hv : Offered vs v) :
    Sound limits (behind (Session.define name v) s) us vs := by
  refine (h.onMachine (Q := fun _ _ => True) ?_).1
  exact ⟨.of_store (.define _ _ _ _), h.layered.define (h.offered hv), trivial⟩

theorem value (h : Sound limits s us vs) (name : String) :
    Sound limits (behind (Session.value name) s) us (resultsOf (Session.value name) s ++ vs) := by
  have hboth : Sound limits (behind (Session.value name) s) us vs ∧
      ∀ v ∈ resultsOf (Session.value name) s,
        FunctionLayered us (behind (Session.value name) s).machine.store v := by
    refine h.onMachine ?_
    cases hget : s.machine.store.get Store.global name with
    | ok v =>
      have hv := h.layered.functions v (Store.has_of_get hget)
      refine .of_ok (a := v) ?_ ⟨.refl s.machine, h.layered, hv⟩
      simp only [hget]
    | error fault =>
      refine .of_error (e := Run.accessFailure (outsideName name) fault) ?_
        ⟨.refl s.machine, h.layered⟩
      simp only [hget]
  exact hboth.1.hold hboth.2

theorem invoke (h : Sound limits s us vs) {f : Function} {arguments : List Value}
    (hf : .function f ∈ vs) (ha : ∀ v ∈ arguments, Offered vs v) :
    Sound limits (behind (Session.invoke limits f arguments) s) us
      (resultsOf (Session.invoke limits f arguments) s ++ vs) := by
  have hkept := (Invariant.layered us).keptBy limits.rounds limits.room
  obtain ⟨hs, hheld⟩ := h.onMachine <| hkept.invoke f arguments s.machine h.layered
    (h.held _ hf) fun v hv => h.offered (ha v hv)
  exact hs.hold hheld

end Sound

/-- A sound session is sound whatever happens next. -/
theorem Sound.next {limits : Limits} {a b : Stage} (h : Sound limits a.session a.units a.held)
    (hstep : a.Next limits b) : Sound limits b.session b.units b.held := by
  cases hstep with
  | read mode source => exact h.read mode source
  | reserve hnext => exact h.of_machine rfl hnext
  | clearDiagnostics => exact h.of_machine rfl (Nat.le_refl _)
  | bindNames hdepth hnodup hnew => exact h.bindNames hdepth hnodup hnew
  | bindTooDeep hdepth => exact h.bindTooDeep hdepth
  | interpret hunit => exact h.interpret hunit
  | define name hv => exact h.define name hv
  | value name => exact h.value name
  | invoke hf ha => exact h.invoke hf ha

/-- A session is sound at any time. -/
theorem Stage.sound {limits : Limits} {clock : Clock} {hosts : List HostFunction} {a : Stage}
    (h : (first clock hosts).Leads limits a) : Sound limits a.session a.units a.held := by
  induction h with
  | refl => exact .start limits clock hosts
  | tail _ hstep ih => exact ih.next hstep

section
variable {limits : Limits} {s : Session} {us : List Code} {vs : List Value} {mode : Mode}
  {source : String} {r : Code.Reading}

theorem Stage.leads_taken (hr : Code.ofSource? mode limits.room s.nextSite source = some r) :
    Stage.Leads limits ⟨s, us, vs⟩ ⟨taken r s, us, vs⟩ := by
  have hrun : Session.read limits mode source s = .ok r.code (taken r s) := by
    simp only [Session.read, hr, taken]
  have hnext := @Stage.Next.read limits s us vs mode source
  rw [behind, hrun] at hnext
  exact .single hnext

/-- The names of a text that was read can be bound: its uses have sites of their own. -/
theorem Stage.leads_named (hsound : Sound limits s us vs)
    (hr : Code.ofSource? mode limits.room s.nextSite source = some r)
    (hdepth : r.code.depth ≤ limits.room) : Stage.Leads limits ⟨s, us, vs⟩
      ⟨named limits r.code (taken r s), us ++ [r.code], vs⟩ := by
  have hfresh := Code.ofSource?_fresh hr
  have hnew (site : Site) (hsite : site ∈ r.code.sites) :
      site < (taken r s).nextSite ∧ ∀ u ∈ us, site ∉ u.sites := by
    have hrange := hfresh.range site hsite
    refine ⟨hrange.2, fun u hu hmem => ?_⟩
    exact Nat.not_le.2 (hsound.numbered u hu site hmem) hrange.1
  have htaken : Stage.Leads limits ⟨s, us, vs⟩ ⟨taken r s, us, vs⟩ := Stage.leads_taken hr
  have hbound := htaken.tail (.bindNames hdepth hfresh.nodup hnew)
  rwa [behind, bindNames_of_le hdepth] at hbound

/-- A text is read, its names are bound, and it is interpreted; or this ends earlier. All that
happens in between is sound. -/
theorem Stage.leads_perform (hsound : Sound limits s us vs) (mode : Mode) (source : String) :
    ∃ added s₁, Stage.Leads limits ⟨s, us, vs⟩ ⟨s₁, us ++ added, vs⟩ ∧
      (behind (Session.perform limits mode source) s = s₁ ∨
        ∃ unit ∈ added, Session.perform limits mode source s = Session.interpret limits unit s₁) ∧
      ∀ unit ∈ added, ∃ r, Code.ofSource? mode limits.room s.nextSite source = some r ∧
        r.code = unit := by
  obtain ⟨r, hr, -⟩ := Code.exists_reading mode limits.room s.nextSite source
  have hunit : ∀ unit ∈ [r.code],
      ∃ r', Code.ofSource? mode limits.room s.nextSite source = some r' ∧ r'.code = unit := by
    simpa using ⟨r, hr, rfl⟩
  have hread : Stage.Leads limits ⟨s, us, vs⟩ ⟨taken r s, us ++ [], vs⟩ := by
    rw [List.append_nil]
    exact Stage.leads_taken hr
  have htakes := takes_perform hr
  rw [behind]
  generalize perform limits mode source s = ending at htakes ⊢
  cases htakes with
  | unread => exact ⟨[], _, hread, .inl rfl, List.forall_mem_nil _⟩
  | tooDeep _ _ hdepth =>
    have hbound := hread.tail (.bindTooDeep hdepth)
    rw [behind, bindNames_of_not_le hdepth] at hbound
    exact ⟨[], _, hbound, .inl rfl, List.forall_mem_nil _⟩
  | rejected _ _ hdepth =>
    exact ⟨[r.code], _, Stage.leads_named hsound hr hdepth, .inl rfl, hunit⟩
  | executed _ hdepth =>
    exact ⟨[r.code], _, Stage.leads_named hsound hr hdepth, .inr ⟨r.code, by simp, rfl⟩, hunit⟩

end

end Session
end Lox
