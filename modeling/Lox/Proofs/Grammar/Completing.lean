import Lox.Proofs.Grammar.Rounds

/-!
# What was read can be completed

A reader that has passed some tokens without a fault is always in the middle of something that can
be brought to an end: there are tokens with which the same ones would have been read. This holds
even at a fault, for the tokens in front of it. And a reader looks at one token behind those that it
passes, so a fault is the same whatever comes behind the token at which it arises.

`Completes` says so of a reader, compared with one that may have more room; it is the one with more
room that gets to the end of the completed tokens. `Continues` adds that the reader can be completed
before it begins, with tokens that do not depend on what was read before. So the statements for the
steps of a reader, from its last one on, make one for the whole.
-/
namespace Lox.Grammar

/-- Some tokens begin with one of these kinds. -/
def Follows (follow : Token.Kind → Prop) (z : List Token) : Prop := ∃ t ∈ z.head?, follow t.kind

/-- Where such a token follows `w`, the tokens from `w` on begin with one of the first kinds. -/
def Leads (follow : Token.Kind → Prop) (w : List Token) (first : Token.Kind → Prop) : Prop :=
  ∀ z, Follows follow z → Follows first (w ++ z)

/-- A reader ends well, in front of the tokens `z`. -/
def Gets {α : Type} (act : Reader α) (c : Cursor) (z : List Token) : Prop :=
  ∃ a c₁, act c = .ok a c₁ ∧ c₁.rest = z

/-- A reader passes these tokens if one of the kinds follows, and no more. -/
def Finishes {α : Type} (follow : Token.Kind → Prop) (act : Reader α) (w : List Token) : Prop :=
  ∀ c z, c.rest = w ++ z → Follows follow z → Gets act c z

/-- The same tokens are read as from another cursor, with others behind them. -/
structure Rereads (c c' : Cursor) (passed z : List Token) : Prop where
  rest : c'.rest = passed ++ z
  site : c'.nextSite = c.nextSite

/-- Where such a reading gets to. -/
def Cursor.past (c' : Cursor) (made : List Report) (site : Site) (z : List Token) : Cursor :=
  ⟨z, c'.last, made ++ c'.reports, site⟩

section
variable {α β ι κ : Type}

/-- Other readings of the tokens that were passed from one cursor to another end in the same way, if
what comes behind the tokens suits them. -/
def Alongside (act' : ι → Reader α) (c : Cursor) (passed : List Token) (made : List Report)
    (c₁ : Cursor) (suits : List Token → Prop)
    (result : Cursor → EStateM.Result Stop Cursor α) : Prop :=
  ∀ i c' z, Rereads c c' passed z → suits z → act' i c' = result (c'.past made c₁.nextSite z)

/-- Tokens that were passed, if there are any, can be completed. -/
def Completable (follow : Token.Kind → Prop) (act' : ι → Reader α) (c : Cursor)
    (passed : List Token) : Prop :=
  passed ≠ [] → ∃ w, ∀ i c' z, Rereads c c' (passed ++ w) z → Follows follow z → Gets (act' i) c' z

/-- What `Completes` says of a reading that begins here. -/
def CompletesAt (deep : Prop) (n : Nat) (follow : Token.Kind → Prop) (act : Reader α)
    (act' : ι → Reader α) (c : Cursor) : Prop :=
  Ends act c
    (fun a c₁ => ∃ passed made, Moves c passed made c₁ ∧ (passed.length < n →
      Alongside act' c passed made c₁ (fun z => z.head? = some c₁.current ∨ Follows follow z)
        (.ok a)))
    (fun stop c₁ => stop = .fault → ∃ passed made, Moves c passed made c₁ ∧ (passed.length < n →
      Alongside act' c passed made c₁ (·.head? = some c₁.current) (.error stop) ∧
      (deep → Completable follow act' c passed)))

/-- `act'` does with the tokens that `act` passes what `act` does, if fewer than `n` of them are
passed and the next one is the same, or one of the kinds that may follow. If `act'` has much more
room, what is passed up to a fault can be completed for it. It stands for several readers, which are
not told apart by what completes them. -/
def Completes (deep : Prop) (n : Nat) (follow : Token.Kind → Prop) (act : Reader α)
    (act' : ι → Reader α) : Prop :=
  ∀ c, HasEnd c.rest → CompletesAt deep n follow act act' c

/-- Readers that depend on what was read before, which are completed alike also before they
begin. -/
structure Continues (deep : Prop) (n : Nat) (follow first : Token.Kind → Prop)
    (act : κ → Reader α) (act' : ι → κ → Reader α) : Prop where
  completes : ∀ k, Completes deep n follow (act k) fun i => act' i k
  scratch : deep → ∃ w, Leads follow w first ∧ ∀ i k, Finishes follow (act' i k) w

/-- A reader that ends well never goes back. -/
def Steady (act : Reader α) : Prop :=
  ∀ c a c₁, HasEnd c.rest → act c = .ok a c₁ → HasEnd c₁.rest ∧ c₁.rest.length ≤ c.rest.length

/-- A reader that ends well passes a token. -/
def Taking (act : Reader α) : Prop :=
  ∀ c a c₁, HasEnd c.rest → act c = .ok a c₁ → HasEnd c₁.rest ∧ c₁.rest.length < c.rest.length

end

section
variable {follow first first' : Token.Kind → Prop} {w z : List Token} {t : Token}

theorem follows_cons (h : follow t.kind) : Follows follow (t :: z) := ⟨t, rfl, h⟩

theorem Follows.imp (h : Follows follow z) (hf : ∀ kind, follow kind → first kind) :
    Follows first z := by
  obtain ⟨t, ht, hk⟩ := h
  exact ⟨t, ht, hf _ hk⟩

theorem leads_cons (h : first t.kind) : Leads follow (t :: w) first := fun _ _ => follows_cons h

theorem leads_nil (h : ∀ kind, follow kind → first kind) : Leads follow [] first :=
  fun _ hz => hz.imp h

theorem Leads.imp (h : Leads follow w first) (hf : ∀ kind, first kind → first' kind) :
    Leads follow w first' :=
  fun z hz => (h z hz).imp hf

theorem Leads.append {ws : List Token} (h : Leads first w first') (h' : Leads follow ws first) :
    Leads follow (w ++ ws) first' := by
  intro z hz
  rw [List.append_assoc]
  exact h _ (h' z hz)

theorem Follows.current {c : Cursor} (h : Follows follow c.rest) : follow c.current.kind := by
  obtain ⟨t, ht, hk⟩ := h
  rw [Cursor.current, List.headD_eq_head?_getD, ht]
  exact hk

end

/-- A token of this kind. -/
def blank (kind : Token.Kind) : Token := ⟨kind, "", .nil, 0⟩

section
variable {α β : Type} {follow follow' first : Token.Kind → Prop} {w w' : List Token} {t : Token}
  {act : Reader α} {next : α → Reader β} {kinds : List Token.Kind} {kind : Token.Kind}

theorem finishes_pure (a : α) : Finishes follow (pure a) [] :=
  fun c _ hc _ => ⟨a, c, rfl, hc⟩

theorem Finishes.mono (h : Finishes follow act w) (hf : ∀ kind, follow' kind → follow kind) :
    Finishes follow' act w :=
  fun c z hc hz => h c z hc (hz.imp hf)

theorem Finishes.bind (h : Finishes first act w) (hn : ∀ a, Finishes follow (next a) w')
    (hw : Leads follow w' first) : Finishes follow (act >>= next) (w ++ w') := by
  intro c z hc hz
  obtain ⟨a, c₁, hact, hc₁⟩ := h c (w' ++ z) (by rw [hc, List.append_assoc]) (hw z hz)
  obtain ⟨b, c₂, hnext, hc₂⟩ := hn a c₁ z hc₁ hz
  exact ⟨b, c₂, (bind_of_ok hact).trans hnext, hc₂⟩

theorem Finishes.congr {act' : Reader α} (h : Finishes follow act' w)
    (hact : ∀ c z, c.rest = w ++ z → Follows follow z → act c = act' c) :
    Finishes follow act w := by
  intro c z hc hz
  rw [Gets, hact c z hc hz]
  exact h c z hc hz

/-- A token that may come does not. -/
theorem Finishes.refuse {k : Option Token → Reader β} (h : Finishes follow (k none) w)
    (hw : Leads follow w (· ∉ kinds)) : Finishes follow (accept kinds >>= k) w :=
  h.congr fun _ z hc hz => accept_bind_of_not_mem (Follows.current (hc ▸ hw z hz))

theorem accept_of_mem {k : Option Token → Reader β} {c : Cursor} (h : c.current.kind ∈ kinds) :
    (accept kinds >>= k) c = k (some c.current) c.advance :=
  accept_bind_of_mem h

/-- A token that may come does. -/
theorem Finishes.accept {k : Option Token → Reader β} (h : Finishes follow (k (some t)) w)
    (hk : t.kind ∈ kinds) (heof : .eof ∉ kinds) :
    Finishes follow (Grammar.accept kinds >>= k) (t :: w) := by
  intro c z hc hz
  have hcurrent : c.current = t := by rw [Cursor.current, hc]; rfl
  have hend : c.atEnd = false := by
    simpa [Cursor.atEnd, hcurrent] using fun he : t.kind = .eof => heof (he ▸ hk)
  rw [Gets, accept_of_mem (hcurrent ▸ hk), hcurrent]
  exact h c.advance z (by rw [Cursor.advance_rest hend, hc]; rfl) hz

theorem finishes_check {k : Bool → Reader β} (h : Finishes follow (k true) w)
    (hw : Leads follow w (· = kind)) : Finishes follow (check kind >>= k) w := by
  refine h.congr fun c z hc hz => ?_
  have hk : c.current.kind = kind := Follows.current (hc ▸ hw z hz)
  rw [bind_of_ok (show check kind c = .ok true c by simp [check, hk])]

theorem finishes_ahead {next : List Token → Reader β}
    (h : ∀ bound, Finishes follow (next bound) w) :
    Finishes follow (ahead >>= next) w :=
  fun c z hc hz => h _ c z hc hz

end

theorem Moves.length_le {c c₁ : Cursor} {passed : List Token} {made : List Report}
    (h : Moves c passed made c₁) : c₁.rest.length ≤ c.rest.length := by
  have := h.length
  omega

section
variable {c c' c₁ : Cursor} {passed passed' z : List Token} {made made' : List Report}

theorem past_nil (h : Rereads c c' [] z) : c'.past [] c.nextSite z = c' := by
  rw [Cursor.past, ← h.site, ← show c'.rest = z from h.rest]
  rfl

theorem past_past (site site' : Site) (z z' : List Token) :
    (c'.past made site z).past made' site' z' = c'.past (made' ++ made) site' z' := by
  simp only [Cursor.past, List.append_assoc]

theorem Rereads.first (h : Rereads c c' (passed ++ passed') z) :
    Rereads c c' passed (passed' ++ z) :=
  ⟨by rw [h.rest, List.append_assoc], h.site⟩

theorem rereads_past (made : List Report) (c₁ c' : Cursor) (passed z : List Token) :
    Rereads c₁ (c'.past made c₁.nextSite (passed ++ z)) passed z :=
  ⟨rfl, rfl⟩

theorem current_of_head? {t : Token} (h : c.rest.head? = some t) : c.current = t := by
  rw [Cursor.current, List.headD_eq_head?_getD, h]
  rfl

/-- Two cursors that read the same token first. -/
theorem Rereads.current (h : Rereads c c' [] z) (hz : z.head? = some c₁.current) :
    c'.current = c₁.current :=
  current_of_head? ((congrArg _ h.rest).trans hz)

theorem HasEnd.head?_eq (h : HasEnd c.rest) : c.rest.head? = some c.current := by
  rw [h.rest_eq_cons]
  rfl

/-- What was passed first is the first token, whatever comes behind it. -/
theorem Moves.head?_append (h : Moves c passed made c₁) (hc : HasEnd c.rest) (hp : passed ≠ [])
    (z : List Token) : (passed ++ z).head? = some c.current := by
  rw [List.head?_append_of_ne_nil passed hp, ← hc.head?_eq, h.rest,
    List.head?_append_of_ne_nil passed hp]

theorem Moves.current_eq (h : Moves c [] made c₁) (hc : HasEnd c.rest) :
    c₁.current = c.current := by
  have hrest : c.rest = c₁.rest := h.rest
  exact Option.some.inj ((hrest ▸ hc).head?_eq.symm.trans (hrest ▸ hc.head?_eq))

end

section
variable {α β ι κ : Type} {deep : Prop} {n m : Nat} {follow follow' first : Token.Kind → Prop}
  {act : Reader α} {act' : ι → Reader α} {next : α → Reader β} {next' : ι → α → Reader β}

section
variable {c c₁ c₂ : Cursor} {passed passed' : List Token} {made made' : List Report}
  {suits suits' : List Token → Prop} {a : α}

theorem Alongside.bind {result : Cursor → EStateM.Result Stop Cursor β}
    (h : Alongside act' c passed made c₁ suits (.ok a))
    (h' : Alongside (fun i => next' i a) c₁ passed' made' c₂ suits' result)
    (hs : ∀ z, suits' z → suits (passed' ++ z)) :
    Alongside (fun i => act' i >>= next' i) c (passed ++ passed') (made' ++ made) c₂ suits'
      result := by
  intro i c' z hr hz
  rw [← past_past c₁.nextSite c₂.nextSite (passed' ++ z) z, ← h' i _ z (rereads_past ..) hz]
  exact bind_of_ok (h i c' _ hr.first (hs z hz))

theorem Alongside.bind_error {stop : Stop}
    (h : Alongside act' c passed made c₁ suits (.error stop)) :
    Alongside (fun i => act' i >>= next' i) c passed made c₁ suits (.error stop) :=
  fun i c' z hr hz => bind_of_error (h i c' z hr hz)

/-- Where the first step has not ended, all that comes behind it is completed, too. -/
theorem Completable.early (h : Completable follow act' c passed) {w' : List Token}
    (hlead : Leads follow' w' follow) (hw' : ∀ i a, Finishes follow' (next' i a) w') :
    Completable follow' (fun i => act' i >>= next' i) c passed := by
  intro hne
  obtain ⟨w, hw⟩ := h hne
  refine ⟨w ++ w', fun i c' z hr hz => ?_⟩
  rw [← List.append_assoc] at hr
  obtain ⟨a, c₁, ha, hc₁⟩ := hw i c' _ hr.first (hlead z hz)
  obtain ⟨b, c₂, hb, hc₂⟩ := hw' i a c₁ z hc₁ hz
  exact ⟨b, c₂, (bind_of_ok ha).trans hb, hc₂⟩

/-- Where the first step has ended, what comes behind it is completed, be it in the middle or before
its first token. -/
theorem Completable.late (h' : Completable follow' (fun i => next' i a) c₁ passed')
    (h : Alongside act' c passed made c₁
      (fun z => z.head? = some c₁.current ∨ Follows follow z) (.ok a))
    (hhead : passed' ≠ [] → ∀ z, (passed' ++ z).head? = some c₁.current) {w' : List Token}
    (hlead : Leads follow' w' follow) (hw' : ∀ i a, Finishes follow' (next' i a) w') :
    Completable follow' (fun i => act' i >>= next' i) c (passed ++ passed') := by
  intro _
  by_cases hp : passed' = []
  · subst hp
    refine ⟨w', fun i c' z hr hz => ?_⟩
    rw [List.append_nil] at hr
    have hok := h i c' _ hr.first (.inr (hlead z hz))
    obtain ⟨b, c₂, hb, hc₂⟩ := hw' i a (c'.past made c₁.nextSite (w' ++ z)) z rfl hz
    exact ⟨b, c₂, (bind_of_ok hok).trans hb, hc₂⟩
  · obtain ⟨w, hw⟩ := h' hp
    refine ⟨w, fun i c' z hr hz => ?_⟩
    rw [List.append_assoc] at hr
    have hok := h i c' _ hr.first (.inl (by rw [List.append_assoc]; exact hhead hp _))
    obtain ⟨b, c₂, hb, hc₂⟩ := hw i _ z (rereads_past ..) hz
    exact ⟨b, c₂, (bind_of_ok hok).trans hb, hc₂⟩

/-- The second reading finds the same token where the first one goes on. -/
theorem Moves.head?_eq (h : Moves c passed made c₁) (hc : HasEnd c.rest) {z : List Token}
    (hz : z.head? = some c₁.current) : (passed ++ z).head? = some c.current := by
  by_cases hp : passed = []
  · subst hp
    rwa [List.nil_append, ← h.current_eq hc]
  · exact h.head?_append hc hp z

end

/-- What comes behind is told how many tokens are left. Where it passes none, what may follow it
may follow the first step as well. -/
theorem Completes.bind (h : Completes deep n follow act act')
    (hn : Continues deep m follow' first next next')
    (hm : n ≤ m ∨ n ≤ m + 1 ∧ Taking act) (hfirst : ∀ kind, first kind → follow kind)
    (hf : (∀ kind, follow' kind → follow kind) ∨ ∀ a, Taking (next a)) :
    Completes deep n follow' (act >>= next) fun i => act' i >>= next' i := by
  refine fun c hc => (ends_bind ..).2 (Ends.imp (Ends.run (h c hc)) (fun a c₁ => ?_)
    fun stop c₁ => ?_)
  · rintro ⟨hact, passed, made, hmoves, hagain⟩
    have hc₁ := hmoves.hasEnd hc
    have hleft : n ≤ m + passed.length := by
      refine hm.elim (fun hm => Nat.le_add_right_of_le hm) fun ⟨hm, ht⟩ => ?_
      have := (ht c a c₁ hc hact).2
      have := hmoves.length
      omega
    refine Ends.imp (Ends.run (hn.completes a c₁ hc₁)) (fun b c₂ => ?_) fun stop c₂ => ?_
    · rintro ⟨hnext, passed', made', hmoves', hagain'⟩
      refine ⟨passed ++ passed', made' ++ made, hmoves.trans hmoves', fun hlt => ?_⟩
      rw [List.length_append] at hlt
      refine (hagain (by omega)).bind (hagain' (by omega)) fun z hz => ?_
      rcases hz with hz | hz
      · exact .inl (hmoves'.head?_eq hc₁ hz)
      · by_cases hp : passed' = []
        · subst hp
          refine hf.elim (fun hf => .inr (hz.imp hf)) fun ht => ?_
          have hlt := (ht a c₁ b c₂ hc₁ hnext).2
          rw [show c₁.rest = c₂.rest from hmoves'.rest] at hlt
          exact absurd hlt (Nat.lt_irrefl _)
        · exact .inl (hmoves'.head?_append hc₁ hp z)
    · rintro ⟨hnext, hfault⟩ hstop
      obtain ⟨passed', made', hmoves', hagain'⟩ := hfault hstop
      refine ⟨passed ++ passed', made' ++ made, hmoves.trans hmoves', fun hlt => ?_⟩
      rw [List.length_append] at hlt
      obtain ⟨hsame, hcomplete⟩ := hagain' (by omega)
      have hok := hagain (by omega)
      refine ⟨hok.bind hsame fun z hz => .inl (hmoves'.head?_eq hc₁ hz), fun hdeep => ?_⟩
      obtain ⟨w', hlead, hw'⟩ := hn.scratch hdeep
      exact (hcomplete hdeep).late hok (hmoves'.head?_append hc₁) (hlead.imp hfirst) hw'
  · rintro ⟨hact, hfault⟩ hstop
    obtain ⟨passed, made, hmoves, hagain⟩ := hfault hstop
    refine ⟨passed, made, hmoves, fun hlt => ?_⟩
    obtain ⟨hsame, hcomplete⟩ := hagain hlt
    refine ⟨hsame.bind_error, fun hdeep => ?_⟩
    obtain ⟨w', hlead, hw'⟩ := hn.scratch hdeep
    exact (hcomplete hdeep).early (hlead.imp hfirst) hw'

theorem completes_pure (a : α) : Completes deep n follow (pure a) fun _ : ι => pure a := by
  refine fun c _ => (ends_pure ..).2 ⟨[], [], .refl c, fun _ _ c' z hr _ => ?_⟩
  rw [past_nil hr]
  rfl

theorem completes_freshSite : Completes deep n follow freshSite fun _ : ι => freshSite := by
  refine fun c _ => .of_ok rfl ⟨[], [], .stay rfl rfl, fun _ _ c' z hr _ => ?_⟩
  show EStateM.Result.ok c'.nextSite { c' with nextSite := c'.nextSite + 1 } = _
  rw [hr.site, Cursor.past, ← show c'.rest = z from hr.rest]
  rfl

theorem past_report (c c' : Cursor) (t : Token) (fault : Fault) (z : List Token)
    (h : Rereads c c' [] z) : c'.past [⟨t, fault⟩] c.nextSite z = c'.report t fault := by
  rw [Cursor.past, ← h.site, ← show c'.rest = z from h.rest]
  rfl

theorem completes_report (t : Token) (fault : Fault) :
    Completes deep n follow (report t fault) fun _ : ι => report t fault := by
  refine fun c _ => .of_ok rfl ⟨[], [⟨t, fault⟩], .stay rfl rfl, fun _ _ c' z hr _ => ?_⟩
  exact congrArg _ (past_report c c' t fault z hr).symm

/-- A fault at the token that comes next. -/
theorem completes_fail (fault : Fault) :
    Completes deep n follow (fail fault : Reader α) fun _ : ι => fail fault := by
  refine fun c hc => .of_error rfl fun _ => ⟨[], [⟨c.current, fault⟩], .stay rfl rfl, fun _ => ?_⟩
  refine ⟨fun _ c' z hr hz => ?_, fun _ hne => absurd rfl hne⟩
  have hcurrent : c'.current = c.current := hr.current (by exact hz)
  show EStateM.Result.error Stop.fault (c'.report c'.current fault) = _
  rw [hcurrent]
  exact congrArg _ (past_report c c' c.current fault z hr).symm

theorem completes_tooDeep : Completes deep n follow (tooDeep : Reader α) act' :=
  fun _ _ => (ends_tooDeep ..).2 nofun

theorem Moves.lt_of_taking {c c₁ : Cursor} {made : List Report} (h : Moves c [] made c₁) :
    ¬ c₁.rest.length < c.rest.length := by
  rw [show c.rest = c₁.rest from h.rest]
  exact Nat.lt_irrefl _

/-- Only this one reading matters, and second ones that begin with the same token or, where it
passes none, with one that may follow. -/
theorem CompletesAt.congr {act₁ : Reader α} {act₁' : ι → Reader α} {c : Cursor}
    (h : CompletesAt deep n follow act₁ act₁' c) (hc : HasEnd c.rest) (hact : act c = act₁ c)
    (hsame : ∀ i c', c'.rest.head? = some c.current → act' i c' = act₁' i c')
    (hfollow : (∀ i c', Follows follow c'.rest → act' i c' = act₁' i c') ∨
      ∀ a c₁, act₁ c = .ok a c₁ → c₁.rest.length < c.rest.length) :
    CompletesAt deep n follow act act' c := by
  refine (Ends.congr hact).2 (Ends.imp (Ends.run h) (fun a c₁ => ?_) fun stop c₁ => ?_)
  · rintro ⟨hok, passed, made, hmoves, hagain⟩
    refine ⟨passed, made, hmoves, fun hlt i c' z hr hz => ?_⟩
    rw [← hagain hlt i c' z hr hz]
    have hmoved (hp : passed ≠ []) : act' i c' = act₁' i c' :=
      hsame i c' (by rw [hr.rest]; exact hmoves.head?_append hc hp z)
    rcases hz with hz | hz
    · exact hsame i c' (by rw [hr.rest]; exact hmoves.head?_eq hc hz)
    · by_cases hp : passed = []
      · subst hp
        refine hfollow.elim (fun hf => hf i c' (by rwa [hr.rest])) fun ht => ?_
        exact absurd (ht a c₁ hok) hmoves.lt_of_taking
      · exact hmoved hp
  · rintro ⟨-, hfault⟩ hstop
    obtain ⟨passed, made, hmoves, hagain⟩ := hfault hstop
    refine ⟨passed, made, hmoves, fun hlt => ?_⟩
    obtain ⟨halong, hcomplete⟩ := hagain hlt
    refine ⟨fun i c' z hr hz => ?_, fun hdeep hne => ?_⟩
    · rw [← halong i c' z hr hz]
      exact hsame i c' (by rw [hr.rest]; exact hmoves.head?_eq hc hz)
    · obtain ⟨w, hw⟩ := hcomplete hdeep hne
      refine ⟨w, fun i c' z hr hz => ?_⟩
      have heq : act' i c' = act₁' i c' := by
        refine hsame i c' ?_
        rw [hr.rest, List.append_assoc]
        exact hmoves.head?_append hc hne _
      rw [Gets, heq]
      exact hw i c' z hr hz

section
variable {c c' c₁ : Cursor} {passed z : List Token} {made : List Report}
  {suits : List Token → Prop} {result : Cursor → EStateM.Result Stop Cursor β}
  {kinds : List Token.Kind} {k : Option Token → Reader β} {k' : ι → Option Token → Reader β}

theorem Rereads.advance (h : Rereads c c' (c.current :: passed) z) (hk : c.current.kind ≠ .eof) :
    c'.current = c.current ∧ Rereads c.advance c'.advance passed z ∧
      ∀ made site z', c'.advance.past made site z' = c'.past made site z' := by
  have hcurrent : c'.current = c.current := by rw [Cursor.current, h.rest]; rfl
  have hend : c.atEnd = false := by simpa [Cursor.atEnd] using hk
  have hend' : c'.atEnd = false := by simpa [Cursor.atEnd, hcurrent] using hk
  refine ⟨hcurrent, ⟨by rw [Cursor.advance_rest hend', h.rest]; rfl, ?_⟩, fun made site z' => ?_⟩
  · simpa [Cursor.advance, hend, hend'] using h.site
  · simp [Cursor.advance, hend', Cursor.past]

/-- The second reading accepts the token that the first one does. -/
theorem Alongside.accept
    (h : Alongside (fun i => k' i (some c.current)) c.advance passed made c₁ suits result)
    (hk : c.current.kind ∈ kinds) (heof : .eof ∉ kinds) :
    Alongside (fun i => Grammar.accept kinds >>= k' i) c (c.current :: passed) made c₁ suits
      result := by
  intro i c' z hr hz
  obtain ⟨hcurrent, hadvance, hpast⟩ := hr.advance fun he => heof (he ▸ hk)
  rw [← hpast, ← h i _ z hadvance hz, ← hcurrent]
  exact accept_of_mem (hcurrent ▸ hk)

theorem Completable.accept
    (h : Completable follow (fun i => k' i (some c.current)) c.advance passed)
    (hk : c.current.kind ∈ kinds) (heof : .eof ∉ kinds) {w : List Token}
    (hw : ∀ i, Finishes follow (k' i (some c.current)) w) :
    Completable follow (fun i => Grammar.accept kinds >>= k' i) c (c.current :: passed) := by
  intro _
  have hbehind : ∃ w, ∀ i c' z, Rereads c.advance c' (passed ++ w) z → Follows follow z →
      Gets (k' i (some c.current)) c' z := by
    by_cases hp : passed = []
    · subst hp
      exact ⟨w, fun i c' z hr hz => hw i c' z hr.rest hz⟩
    · exact h hp
  obtain ⟨w, hw⟩ := hbehind
  refine ⟨w, fun i c' z hr hz => ?_⟩
  obtain ⟨hcurrent, hadvance, -⟩ := Rereads.advance hr fun he => heof (he ▸ hk)
  obtain ⟨b, c₂, hb, hc₂⟩ := hw i _ z hadvance hz
  refine ⟨b, c₂, ?_, hc₂⟩
  rw [← hb, ← hcurrent]
  exact accept_of_mem (hcurrent ▸ hk)

/-- A token of some kinds may follow, and behind it one less is left. -/
theorem Completes.accept (hnone : Completes deep n follow (k none) fun i => k' i none)
    (hsome : ∀ t, t.kind ∈ kinds → ∃ first, Continues deep m follow first
      (fun _ : Unit => k (some t)) fun i _ => k' i (some t))
    (heof : .eof ∉ kinds) (hm : n ≤ m + 1)
    (hd : (∀ kind, follow kind → kind ∉ kinds) ∨ Taking (k none)) :
    Completes deep n follow (Grammar.accept kinds >>= k)
      fun i => Grammar.accept kinds >>= k' i := by
  intro c hc
  by_cases hmem : c.current.kind ∈ kinds
  · have hne : c.current.kind ≠ .eof := fun he => heof (he ▸ hmem)
    have hadvance := moves_advance hc hne
    obtain ⟨first, hcontinues⟩ := hsome _ hmem
    have hrest := hcontinues.completes () c.advance (hadvance.hasEnd hc)
    refine (ends_bind ..).2 (.of_ok (if_pos hmem) (Ends.imp hrest (fun b c₁ => ?_)
      fun stop c₁ => ?_))
    · rintro ⟨passed, made, hmoves, hagain⟩
      refine ⟨c.current :: passed, made, ?_, fun hlt => ?_⟩
      · simpa using hadvance.trans hmoves
      · rw [List.length_cons] at hlt
        exact (hagain (by omega)).accept hmem heof
    · intro hfault hstop
      obtain ⟨passed, made, hmoves, hagain⟩ := hfault hstop
      refine ⟨c.current :: passed, made, ?_, fun hlt => ?_⟩
      · simpa using hadvance.trans hmoves
      · rw [List.length_cons] at hlt
        obtain ⟨hsame, hcomplete⟩ := hagain (by omega)
        refine ⟨hsame.accept hmem heof, fun hdeep => ?_⟩
        obtain ⟨w, -, hw⟩ := hcontinues.scratch hdeep
        exact (hcomplete hdeep).accept hmem heof fun i => hw i ()
  · refine (hnone c hc).congr hc (accept_bind_of_not_mem hmem) (fun i c' hhead => ?_)
      (hd.imp (fun hd i c' hz => ?_) fun ht b c₁ hok => (ht c b c₁ hc hok).2)
    · have hcurrent : Follows (· ∉ kinds) c'.rest := ⟨_, hhead, hmem⟩
      exact accept_bind_of_not_mem hcurrent.current
    · exact accept_bind_of_not_mem (hz.imp hd).current

end

theorem Completes.steady (h : Completes deep n follow act act') : Steady act := by
  intro c a c₁ hc hact
  obtain ⟨passed, made, hmoves, -⟩ := Ends.ok (h c hc) hact
  exact ⟨hmoves.hasEnd hc, hmoves.length_le⟩

theorem Taking.steady (h : Taking act) : Steady act := by
  intro c a c₁ hc hact
  obtain ⟨hc₁, hlt⟩ := h c a c₁ hc hact
  exact ⟨hc₁, Nat.le_of_lt hlt⟩

theorem steady_pure (a : α) : Steady (pure a : Reader α) :=
  fun _ _ _ hc hok => by cases hok; exact ⟨hc, Nat.le_refl _⟩

theorem Taking.bind (h : Taking act) (hn : ∀ a, Steady (next a)) : Taking (act >>= next) := by
  intro c b c₂ hc hok
  obtain ⟨a, c₁, hact, hnext⟩ := ok_of_bind hok
  have hfirst := h c a c₁ hc hact
  have hrest := hn a c₁ b c₂ hfirst.1 hnext
  exact ⟨hrest.1, Nat.lt_of_le_of_lt hrest.2 hfirst.2⟩

theorem Taking.map (h : Taking act) (f : α → β) : Taking (f <$> act) := by
  intro c b c₁ hc hok
  rw [map_eq_pure_bind] at hok
  obtain ⟨a, c₂, hact, hpure⟩ := ok_of_bind hok
  cases hpure
  exact h c a c₁ hc hact

theorem taking_fail (fault : Fault) : Taking (fail fault : Reader α) :=
  fun _ _ _ _ hok => by cases hok

theorem taking_tooDeep : Taking (tooDeep : Reader α) :=
  fun _ _ _ _ hok => by cases hok

theorem Taking.accept {kinds : List Token.Kind} {k : Option Token → Reader β}
    (hnone : Taking (k none)) (hsome : ∀ t, t.kind ∈ kinds → Steady (k (some t)))
    (heof : .eof ∉ kinds) : Taking (accept kinds >>= k) := by
  intro c b c₂ hc hok
  by_cases hmem : c.current.kind ∈ kinds
  · have hadvance := moves_advance hc fun he => heof (he ▸ hmem)
    rw [accept_of_mem hmem] at hok
    have hrest := hsome _ hmem c.advance b c₂ (hadvance.hasEnd hc) hok
    have hlength := hadvance.length
    rw [List.length_singleton] at hlength
    exact ⟨hrest.1, by omega⟩
  · rw [accept_bind_of_not_mem hmem] at hok
    exact hnone c b c₂ hc hok

theorem expect_bind_eq (kind : Token.Kind) (what : Expected) (k : Token → Reader β) :
    expect kind what >>= k = accept [kind] >>= fun t => match t with
      | none => fail (.expected what)
      | some t => k t := by
  rw [expect_eq_accept, bind_assoc]
  congr 1
  funext t
  cases t <;> rfl

theorem taking_expect {kind : Token.Kind} {what : Expected} {k : Token → Reader β}
    (heof : kind ≠ .eof) (h : ∀ t, Steady (k t)) : Taking (expect kind what >>= k) := by
  rw [expect_bind_eq]
  exact .accept (taking_fail _) (fun t _ => h t) (by simpa using heof.symm)

section
variable {act : κ → Reader α} {act' : ι → κ → Reader α} {next : κ → α → Reader β}
  {next' : ι → κ → α → Reader β} {first' : Token.Kind → Prop}

theorem Continues.single (h : Continues deep n follow first act act') (k : κ) :
    Continues deep n follow first (fun _ : Unit => act k) fun i _ => act' i k :=
  ⟨fun _ => h.completes k, fun hdeep => (h.scratch hdeep).imp fun _ hw =>
    ⟨hw.1, fun i _ => hw.2 i k⟩⟩

theorem Continues.andThen (h : Continues deep n follow first act act')
    (hn : Continues deep m follow' first' (fun p : κ × α => next p.1 p.2)
      fun i p => next' i p.1 p.2)
    (hm : n ≤ m ∨ n ≤ m + 1 ∧ ∀ k, Taking (act k)) (hfirst : ∀ kind, first' kind → follow kind)
    (hf : (∀ kind, follow' kind → follow kind) ∨ ∀ k a, Taking (next k a)) :
    Continues deep n follow' first (fun k => act k >>= next k)
      fun i k => act' i k >>= next' i k := by
  refine ⟨fun k => ?_, fun hdeep => ?_⟩
  · refine (h.completes k).bind ⟨fun a => hn.completes (k, a), fun hdeep => ?_⟩
      (hm.imp_right fun hm => ⟨hm.1, hm.2 k⟩) hfirst (hf.imp_right fun hf => hf k)
    obtain ⟨w, hlead, hw⟩ := hn.scratch hdeep
    exact ⟨w, hlead, fun i a => hw i (k, a)⟩
  · obtain ⟨w, hlead, hw⟩ := h.scratch hdeep
    obtain ⟨w', hlead', hw'⟩ := hn.scratch hdeep
    exact ⟨w ++ w', hlead.append (hlead'.imp hfirst), fun i k =>
      (hw i k).bind (fun a => hw' i (k, a)) (hlead'.imp hfirst)⟩

/-- What comes behind may be followed by the same tokens. -/
theorem Continues.bind (h : Continues deep n follow first act act')
    (hn : Continues deep n follow first' (fun p : κ × α => next p.1 p.2)
      fun i p => next' i p.1 p.2) (hfirst : ∀ kind, first' kind → follow kind) :
    Continues deep n follow first (fun k => act k >>= next k) fun i k => act' i k >>= next' i k :=
  h.andThen hn (.inl (Nat.le_refl n)) hfirst (.inl fun _ hk => hk)

/-- What comes behind takes a token. -/
theorem Continues.close (h : Continues deep n follow first act act')
    (hn : Continues deep n follow' first' (fun p : κ × α => next p.1 p.2)
      fun i p => next' i p.1 p.2) (ht : ∀ k a, Taking (next k a))
    (hfirst : ∀ kind, first' kind → follow kind) :
    Continues deep n follow' first (fun k => act k >>= next k) fun i k => act' i k >>= next' i k :=
  h.andThen hn (.inl (Nat.le_refl n)) hfirst (.inr ht)

theorem continues_pure (f : κ → α) (h : ∀ kind, follow kind → first kind) :
    Continues deep n follow first (fun k => pure (f k)) fun (_ : ι) k => pure (f k) :=
  ⟨fun k => completes_pure (f k), fun _ => ⟨[], leads_nil h, fun _ k => finishes_pure (f k)⟩⟩

theorem Continues.map (h : Continues deep n follow first act act') (f : κ → α → β) :
    Continues deep n follow first (fun k => f k <$> act k) fun i k => f k <$> act' i k := by
  simp only [map_eq_pure_bind]
  exact h.bind (continues_pure (fun p : κ × α => f p.1 p.2) fun _ hk => hk) fun _ hk => hk

theorem continues_freshSite : Continues deep n follow follow (fun _ : κ => freshSite)
    fun (_ : ι) _ => freshSite :=
  ⟨fun _ => completes_freshSite, fun _ => ⟨[], leads_nil fun _ hk => hk,
    fun _ _ c _ hc _ => ⟨c.nextSite, _, rfl, hc⟩⟩⟩

section
variable {kinds : List Token.Kind} {k : κ → Option Token → Reader β}
  {k' : ι → κ → Option Token → Reader β}

/-- A token of some kinds may follow. What is completed before it is completed without it. -/
theorem Continues.option (hnone : Continues deep n follow first (fun x => k x none)
      fun i x => k' i x none)
    (hsome : ∀ t, t.kind ∈ kinds → ∃ first, Continues deep m follow first
      (fun x => k x (some t)) fun i x => k' i x (some t))
    (heof : .eof ∉ kinds) (hm : n ≤ m + 1) (hfirst : ∀ kind, first kind → kind ∉ kinds)
    (hd : (∀ kind, follow kind → kind ∉ kinds) ∨ ∀ x, Taking (k x none)) :
    Continues deep n follow first (fun x => accept kinds >>= k x)
      fun i x => accept kinds >>= k' i x := by
  refine ⟨fun x => .accept (hnone.completes x)
    (fun t ht => (hsome t ht).imp fun _ h => h.single x) heof hm
    (hd.imp_right fun hd => hd x), fun hdeep => ?_⟩
  obtain ⟨w, hlead, hw⟩ := hnone.scratch hdeep
  exact ⟨w, hlead, fun i x => (hw i x).refuse (hlead.imp hfirst)⟩

/-- A token of some kinds may follow. What is completed before it is completed with such a token. -/
theorem Continues.choice {t : Token} (hnone : ∀ x, Completes deep n follow (k x none)
      fun i => k' i x none)
    (hsome : ∀ t, t.kind ∈ kinds → ∃ first, Continues deep m follow first
      (fun x => k x (some t)) fun i x => k' i x (some t))
    (heof : .eof ∉ kinds) (hm : n ≤ m + 1) (ht : t.kind ∈ kinds) (hfirst : first t.kind)
    (hd : (∀ kind, follow kind → kind ∉ kinds) ∨ ∀ x, Taking (k x none)) :
    Continues deep n follow first (fun x => accept kinds >>= k x)
      fun i x => accept kinds >>= k' i x := by
  refine ⟨fun x => .accept (hnone x)
    (fun t ht => (hsome t ht).imp fun _ h => h.single x) heof hm
    (hd.imp_right fun hd => hd x), fun hdeep => ?_⟩
  obtain ⟨_, hcontinues⟩ := hsome t ht
  obtain ⟨w, -, hw⟩ := hcontinues.scratch hdeep
  exact ⟨t :: w, leads_cons hfirst, fun i x => (hw i x).accept ht heof⟩

end

/-- A token of this kind has to follow. -/
theorem Continues.expect {kind : Token.Kind} {what : Expected} {k : κ → Token → Reader β}
    {k' : ι → κ → Token → Reader β} {p : Token.Kind → Prop}
    (h : ∀ t, Continues deep n follow p (fun x => k x t) fun i x => k' i x t)
    (heof : kind ≠ .eof) :
    Continues deep n follow (· = kind) (fun x => expect kind what >>= k x)
      fun i x => expect kind what >>= k' i x := by
  simp only [expect_bind_eq]
  refine .choice (t := blank kind) (fun x => completes_fail _) (fun t _ => ⟨_, h t⟩)
    (by simpa using heof.symm) (Nat.le_succ n) (List.mem_singleton.2 rfl) rfl
    (.inr fun x => taking_fail _)

end

theorem continues_expect {kind : Token.Kind} {what : Expected} (heof : kind ≠ .eof) :
    Continues deep n follow (· = kind) (fun _ : κ => Grammar.expect kind what)
      fun (_ : ι) _ => Grammar.expect kind what := by
  have h : Continues deep n follow (· = kind) (fun _ : κ => Grammar.expect kind what >>= pure)
      fun (_ : ι) _ => Grammar.expect kind what >>= pure :=
    .expect (fun t => continues_pure (fun _ => t) fun _ hk => hk) heof
  simpa only [bind_pure] using h

section
variable {act : κ → Reader α} {act' : ι → κ → Reader α} {first' : Token.Kind → Prop}

/-- Something in front of a token that has to follow. -/
theorem Continues.thenExpect {kind : Token.Kind} {what : Expected} {k : κ → α → Token → Reader β}
    {k' : ι → κ → α → Token → Reader β} (h : Continues deep n follow first act act')
    (hn : ∀ t, Continues deep n follow' first' (fun p : κ × α => k p.1 p.2 t)
      fun i p => k' i p.1 p.2 t) (heof : kind ≠ .eof) (hk : follow kind) :
    Continues deep n follow' first (fun x => act x >>= fun a => Grammar.expect kind what >>= k x a)
      fun i x => act' i x >>= fun a => Grammar.expect kind what >>= k' i x a :=
  h.close (.expect hn heof)
    (fun x a => taking_expect heof fun t => ((hn t).completes (x, a)).steady)
    (by rintro _ rfl; exact hk)

end

theorem Completes.mono (h : Completes deep n follow act act')
    (hf : ∀ kind, follow' kind → follow kind) : Completes deep n follow' act act' := by
  refine fun c hc => Ends.imp (h c hc) (fun a c₁ => ?_) fun stop c₁ hfault hstop => ?_
  · rintro ⟨passed, made, hmoves, hagain⟩
    exact ⟨passed, made, hmoves, fun hlt i c' z hr hz =>
      hagain hlt i c' z hr (hz.imp_right fun hz => hz.imp hf)⟩
  · obtain ⟨passed, made, hmoves, hagain⟩ := hfault hstop
    refine ⟨passed, made, hmoves, fun hlt => ⟨(hagain hlt).1, fun hdeep hne => ?_⟩⟩
    obtain ⟨w, hw⟩ := (hagain hlt).2 hdeep hne
    exact ⟨w, fun i c' z hr hz => hw i c' z hr (hz.imp hf)⟩

theorem Continues.mono {act : κ → Reader α} {act' : ι → κ → Reader α}
    (h : Continues deep n follow first act act') (hf : ∀ kind, follow' kind → follow kind) :
    Continues deep n follow' first act act' :=
  ⟨fun k => (h.completes k).mono hf, fun hdeep => (h.scratch hdeep).imp fun _ hw =>
    ⟨fun z hz => hw.1 z (hz.imp hf), fun i k => (hw.2 i k).mono hf⟩⟩

theorem check_bind (kind : Token.Kind) (k : Bool → Reader β) (c : Cursor) :
    (check kind >>= k) c = k (c.current.kind = kind) c := rfl

/-- Something that is missing if a token of this kind comes first. -/
theorem Completes.orMissing {kind : Token.Kind} {a : α} (h : Completes deep n follow act act')
    (ht : Taking act) (hk : follow kind) :
    Completes deep n (· = kind) (do if ← check kind then pure a else act)
      fun i => (do if ← check kind then pure a else act' i) := by
  intro c hc
  by_cases hck : c.current.kind = kind
  · have hmissing : Completes deep n (· = kind) (pure a) fun _ : ι => pure a := completes_pure a
    refine (hmissing c hc).congr hc (by simp [check_bind, hck]) (fun i c' hhead => ?_)
      (.inl fun i c' hz => ?_)
    · simp [check_bind, current_of_head? hhead, hck]
    · simp [check_bind, show c'.current.kind = kind from hz.current]
  · have hthere : Completes deep n (· = kind) act act' := h.mono fun _ heq => heq ▸ hk
    refine (hthere c hc).congr hc (by simp [check_bind, hck]) (fun i c' hhead => ?_)
      (.inr fun b c₁ hok => (ht c b c₁ hc hok).2)
    simp [check_bind, current_of_head? hhead, hck]

/-- Something that is missing if a token of this kind comes first, and that is completed so. -/
theorem Continues.orMissing {act : κ → Reader α} {act' : ι → κ → Reader α} {kind : Token.Kind}
    (a : κ → α) (h : Continues deep n follow first act act') (ht : ∀ k, Taking (act k))
    (hk : follow kind) :
    Continues deep n (· = kind) (· = kind)
      (fun k => do if ← check kind then pure (a k) else act k)
      fun i k => (do if ← check kind then pure (a k) else act' i k) := by
  refine ⟨fun k => (h.completes k).orMissing (ht k) hk, fun _ => ⟨[], leads_nil fun _ hk => hk, ?_⟩⟩
  exact fun i k => finishes_check (by simpa using finishes_pure (a k)) (leads_nil fun _ hk => hk)

theorem Rereads.report {c c' : Cursor} {passed z : List Token} (h : Rereads c c' passed z)
    (t t' : Token) (fault fault' : Fault) :
    Rereads (c.report t fault) (c'.report t' fault') passed z :=
  ⟨h.rest, h.site⟩

/-- A report at the token that comes next, of which nothing is left in what completes it. -/
theorem Completes.reportHere (h : Completes deep n follow act act') (ht : Taking act)
    (fault : Fault) :
    Completes deep n follow (do report (← current) fault; act)
      fun i => (do report (← current) fault; act' i) := by
  intro c hc
  have hrest := h (c.report c.current fault) hc
  have hpast {c' c₁ : Cursor} {made : List Report} {z : List Token} :
      (c'.report c.current fault).past made c₁.nextSite z =
        c'.past (made ++ [⟨c.current, fault⟩]) c₁.nextSite z := by
    simp [Cursor.past, Cursor.report]
  have hmoved {passed : List Token} {made : List Report} {c₁ : Cursor}
      (hmoves : Moves (c.report c.current fault) passed made c₁) :
      Moves c passed (made ++ [⟨c.current, fault⟩]) c₁ :=
    ⟨hmoves.rest, hmoves.noEnd, by rw [hmoves.reports]; simp [Cursor.report]⟩
  have hagain {i : ι} {c' : Cursor} (hhead : c'.rest.head? = some c.current) :
      (do report (← current) fault; act' i : Reader α) c' =
        act' i (c'.report c.current fault) := by
    rw [← current_of_head? hhead]
    rfl
  refine (ends_bind ..).2 (.of_ok rfl ((ends_bind ..).2 (.of_ok rfl
    (Ends.imp (Ends.run hrest) (fun a c₁ => ?_) fun stop c₁ => ?_))))
  · rintro ⟨hok, passed, made, hmoves, halong⟩
    refine ⟨passed, _, hmoved hmoves, fun hlt i c' z hr hz => ?_⟩
    have hp : passed ≠ [] := by
      rintro rfl
      exact hmoves.lt_of_taking (ht (c.report c.current fault) a c₁ hc hok).2
    refine (hagain (by rw [hr.rest]; exact (hmoved hmoves).head?_append hc hp z)).trans ?_
    rw [← hpast]
    exact halong hlt i _ z (hr.report ..) hz
  · rintro ⟨-, hfault⟩ hstop
    obtain ⟨passed, made, hmoves, hboth⟩ := hfault hstop
    refine ⟨passed, _, hmoved hmoves, fun hlt => ⟨fun i c' z hr hz => ?_, fun hdeep hne => ?_⟩⟩
    · refine (hagain (by rw [hr.rest]; exact (hmoved hmoves).head?_eq hc hz)).trans ?_
      rw [← hpast]
      exact (hboth hlt).1 i _ z (hr.report ..) hz
    · obtain ⟨w, hw⟩ := (hboth hlt).2 hdeep hne
      refine ⟨w, fun i c' z hr hz => ?_⟩
      obtain ⟨a, c₂, ha, hc₂⟩ := hw i (c'.report c'.current fault) z (hr.report ..) hz
      exact ⟨a, c₂, ha, hc₂⟩

theorem Continues.reportHere {act : κ → Reader α} {act' : ι → κ → Reader α}
    (h : Continues deep n follow first act act') (ht : ∀ k, Taking (act k)) (fault : Fault) :
    Continues deep n follow first (fun k => do report (← current) fault; act k)
      fun i k => (do report (← current) fault; act' i k) := by
  refine ⟨fun k => (h.completes k).reportHere (ht k) fault, fun hdeep => ?_⟩
  obtain ⟨w, hlead, hw⟩ := h.scratch hdeep
  exact ⟨w, hlead, fun i k c z hc hz => hw i k (c.report c.current fault) z hc hz⟩

/-- The second readers may be others, if each of them is one of those that are known. -/
theorem Completes.reindex {ι' : Type} {act'' : ι' → Reader α}
    (h : Completes deep n follow act act') (g : ι' → ι) (hg : ∀ i, act'' i = act' (g i)) :
    Completes deep n follow act act'' := by
  obtain rfl : act'' = fun i => act' (g i) := funext hg
  refine fun c hc => Ends.imp (h c hc) (fun a c₁ => ?_) fun stop c₁ hfault hstop => ?_
  · rintro ⟨passed, made, hmoves, hagain⟩
    exact ⟨passed, made, hmoves, fun hlt i => hagain hlt (g i)⟩
  · obtain ⟨passed, made, hmoves, hagain⟩ := hfault hstop
    refine ⟨passed, made, hmoves, fun hlt => ⟨fun i => (hagain hlt).1 (g i), fun hdeep hne => ?_⟩⟩
    exact ((hagain hlt).2 hdeep hne).imp fun w hw i => hw (g i)

/-- No reading is so short that a second one would be told anything. -/
theorem Completes.zero {ι' : Type} {act'' : ι' → Reader α} (h : Completes deep n follow act act') :
    Completes deep 0 follow act act'' := by
  refine fun c hc => Ends.imp (h c hc) (fun a c₁ => ?_) fun stop c₁ hfault hstop => ?_
  · rintro ⟨passed, made, hmoves, -⟩
    exact ⟨passed, made, hmoves, nofun⟩
  · obtain ⟨passed, made, hmoves, -⟩ := hfault hstop
    exact ⟨passed, made, hmoves, nofun⟩

theorem Continues.comap {ι' κ' : Type} {act : κ → Reader α} {act' : ι → κ → Reader α}
    (h : Continues deep n follow first act act') (f : κ' → κ) (g : ι' → ι) :
    Continues deep n follow first (fun k => act (f k)) fun i k => act' (g i) (f k) :=
  ⟨fun k => (h.completes (f k)).reindex g fun _ => rfl, fun hdeep =>
    (h.scratch hdeep).imp fun _ hw => ⟨hw.1, fun i k => hw.2 (g i) (f k)⟩⟩

/-- The bounds of loops that may have this many rounds. -/
abbrev Bound (n : Nat) : Type := {bound : List Token // n ≤ bound.length}

/-- The bound of a loop that begins here suffices in both readings. -/
theorem Completes.ahead {next : List Token → Reader β} {next' : ι → List Token → Reader β}
    (h : ∀ m bound, m ≤ bound.length → Completes deep m follow (next bound)
      fun i : ι × Bound m => next' i.1 i.2.1) :
    Completes deep n follow (Grammar.ahead >>= next) fun i => Grammar.ahead >>= next' i := by
  intro c hc
  -- How far the bounds have to go is known only where the reading ends.
  have hlong {passed z : List Token} {c' : Cursor} (hrest : c'.rest = passed ++ z) :
      passed.length + 1 ≤ c'.ahead.length := by
    rw [Cursor.ahead, List.length_cons, hrest, List.length_append]
    omega
  refine (ends_bind ..).2 ((ends_ahead ..).2 (Ends.imp (Ends.run (h 0 _ (Nat.zero_le _) c hc))
    (fun a c₁ => ?_) fun stop c₁ => ?_))
  · rintro ⟨hok, passed, made, hmoves, -⟩
    obtain ⟨_, _, hmoves', hagain⟩ := Ends.ok (h _ c.ahead (hlong hmoves.rest) c hc) hok
    obtain ⟨rfl, rfl⟩ := hmoves.unique hmoves'
    exact ⟨_, _, hmoves, fun _ i c' z hr hz =>
      hagain (Nat.lt_succ_self _) (i, ⟨c'.ahead, hlong hr.rest⟩) c' z hr hz⟩
  · rintro ⟨herror, hfault⟩ hstop
    obtain ⟨passed, made, hmoves, -⟩ := hfault hstop
    obtain ⟨_, _, hmoves', hagain⟩ :=
      Ends.error (h _ c.ahead (hlong hmoves.rest) c hc) herror hstop
    obtain ⟨rfl, rfl⟩ := hmoves.unique hmoves'
    obtain ⟨hsame, hcomplete⟩ := hagain (Nat.lt_succ_self _)
    refine ⟨_, _, hmoves, fun _ => ⟨fun i c' z hr hz => ?_, fun hdeep hne => ?_⟩⟩
    · exact hsame (i, ⟨c'.ahead, hlong hr.rest⟩) c' z hr hz
    · obtain ⟨w, hw⟩ := hcomplete hdeep hne
      refine ⟨w, fun i c' z hr hz => ?_⟩
      exact hw (i, ⟨c'.ahead, hlong (hr.rest.trans (List.append_assoc ..))⟩) c' z hr hz

theorem Continues.ahead {next : κ → List Token → Reader β} {next' : ι → κ → List Token → Reader β}
    (h : ∀ m bound, m ≤ bound.length → Continues deep m follow first (fun k => next k bound)
      fun (i : ι × Bound m) k => next' i.1 k i.2.1) :
    Continues deep n follow first (fun k => Grammar.ahead >>= next k)
      fun i k => Grammar.ahead >>= next' i k := by
  refine ⟨fun k => .ahead fun m bound hm => (h m bound hm).completes k, fun hdeep => ?_⟩
  obtain ⟨w, hlead, hw⟩ := (h 0 [] (Nat.le_refl 0)).scratch hdeep
  exact ⟨w, hlead, fun i k => finishes_ahead fun bound => hw (i, ⟨bound, Nat.zero_le _⟩) k⟩

/-- A loop that takes a token in every round may go on for as long as there are tokens. -/
theorem continues_loop (loop loop' : List Token → κ → Reader α)
    (hscratch : deep → ∃ w, Leads follow w first ∧ ∀ b k, Finishes follow (loop' b k) w)
    (hnil : ∀ k, Completes deep 0 follow (loop [] k) fun _ : Unit => loop' [] k)
    (hcons : ∀ n t bound, Continues deep n follow first (loop bound)
        (fun i : Bound n => loop' i.1) →
      ∀ k, Completes deep (n + 1) follow (loop (t :: bound) k)
        fun i : Token × Bound n => loop' (i.1 :: i.2.1) k)
    {n : Nat} {bound : List Token} (hbound : n ≤ bound.length) :
    Continues deep n follow first (loop bound)
      fun i : Bound n => loop' i.1 := by
  have hfinish (m : Nat) (hdeep : deep) : ∃ w, Leads follow w first ∧
      ∀ (i : Bound m) k, Finishes follow (loop' i.1 k) w :=
    (hscratch hdeep).imp fun w hw => ⟨hw.1, fun i => hw.2 i.1⟩
  refine ⟨?_, hfinish n⟩
  induction bound generalizing n with
  | nil =>
    cases Nat.le_zero.1 hbound
    exact fun k => (hnil k).zero
  | cons t bound ih =>
    cases n with
    | zero => exact fun k => (hcons 0 t bound ⟨ih (Nat.zero_le _), hfinish 0⟩ k).zero
    | succ n =>
      have hrest := ih (Nat.le_of_succ_le_succ hbound)
      refine fun k => (hcons n t bound ⟨hrest, hfinish n⟩ k).reindex
        (fun i => match i with
          | ⟨t' :: b, hb⟩ => (t', ⟨b, Nat.le_of_succ_le_succ hb⟩)
          | ⟨[], hb⟩ => absurd hb (Nat.not_succ_le_zero n)) ?_
      rintro ⟨b, hb⟩
      cases b with
      | nil => exact absurd hb (Nat.not_succ_le_zero n)
      | cons t' b => rfl

end

end Lox.Grammar
