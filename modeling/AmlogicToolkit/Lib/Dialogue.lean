import Mathlib.Data.List.Basic
import Mathlib.Data.List.Infix

/-!
# Programs that talk to a peer

A `Dialogue` sends commands, and what it does next depends on the answers. Nothing is assumed about
the peer: a run (`Dialogue.Runs`) takes any answers, and its log is what was sent and answered.

Four properties of all runs are stated here, with the rules that carry them along sequences,
branches and loops: which commands are sent (`Sends`), that a bad answer ends the run (`Heeds`),
that the commands of a kind follow a list (`Follows`), and that a monitor of the log allows every
command when it is sent (`Guarded`).
-/

namespace AmlogicToolkit

universe u

/-- A program that sends commands of type `C`, gets an answer of type `A` for each, and ends with a
value, or stops early with an `E`. -/
inductive Dialogue (C A E α : Type u) where
  | done (a : α)
  | stop (e : E)
  | ask (c : C) (next : A → Dialogue C A E α)

namespace Dialogue

variable {C A E α β : Type u}

/-- One program after the other: the second gets the value of the first. -/
protected def bind : Dialogue C A E α → (α → Dialogue C A E β) → Dialogue C A E β
  | done a, f => f a
  | stop e, _ => stop e
  | ask c next, f => ask c fun a => (next a).bind f

instance : Monad (Dialogue C A E) where
  pure := done
  bind := Dialogue.bind

/-- One command is sent, and its answer is the value. -/
def send (c : C) : Dialogue C A E A := ask c done

/-- A part that sends nothing, and ends as the result does. -/
def lift : Except E α → Dialogue C A E α
  | .ok a => done a
  | .error e => stop e

/-- A part that is left out unless `b` holds. -/
def when (p : Dialogue C A E PUnit) (b : Prop) [Decidable b] : Dialogue C A E PUnit :=
  if b then p else done ⟨⟩

/-! ## Runs -/

/-- A complete run: the commands with their answers, and how it ends. -/
inductive Runs : Dialogue C A E α → List (C × A) → Except E α → Prop
  | done (a : α) : Runs (done a) [] (.ok a)
  | stop (e : E) : Runs (stop e) [] (.error e)
  | ask {next : A → Dialogue C A E α} {log : List (C × A)} {out : Except E α} (c : C) (a : A) :
    Runs (next a) log out → Runs (ask c next) ((c, a) :: log) out

/-- The run with a peer that answers by what it has seen so far. -/
def run (peer : List (C × A) → C → A) :
    Dialogue C A E α → List (C × A) → List (C × A) × Except E α
  | done a, _ => ([], .ok a)
  | stop e, _ => ([], .error e)
  | ask c next, seen =>
    let r := (next (peer seen c)).run peer (seen ++ [(c, peer seen c)])
    ((c, peer seen c) :: r.1, r.2)

variable {p : Dialogue C A E α} {f : α → Dialogue C A E β} {log : List (C × A)}

/-- What a peer and a dialogue do together is a run of the dialogue. -/
theorem run_runs (peer : List (C × A) → C → A) (p : Dialogue C A E α) (seen : List (C × A)) :
    Runs p (p.run peer seen).1 (p.run peer seen).2 := by
  induction p generalizing seen with
  | done a => exact .done a
  | stop e => exact .stop e
  | ask c next ih => exact .ask c _ (ih _ _)

/-- A dialogue that is over sends nothing and returns its value. -/
@[simp] theorem runs_pure {a : α} {out : Except E α} :
    Runs (pure a : Dialogue C A E α) log out ↔ log = [] ∧ out = .ok a := by
  constructor
  · intro h
    cases h
    exact ⟨rfl, rfl⟩
  · rintro ⟨rfl, rfl⟩
    exact .done a

/-- A dialogue that stops sends nothing and returns its error. -/
@[simp] theorem runs_stop {e : E} {out : Except E α} :
    Runs (stop e : Dialogue C A E α) log out ↔ log = [] ∧ out = .error e := by
  constructor
  · intro h
    cases h
    exact ⟨rfl, rfl⟩
  · rintro ⟨rfl, rfl⟩
    exact .stop e

/-- A result that is lifted sends nothing and is returned. -/
@[simp] theorem runs_lift {r out : Except E α} :
    Runs (lift r : Dialogue C A E α) log out ↔ log = [] ∧ out = r := by
  cases r with
  | ok a => exact runs_pure
  | error e => exact runs_stop

/-- A single command is sent once, and its answer is returned. -/
@[simp] theorem runs_send {c : C} {out : Except E A} :
    Runs (send c) log out ↔ ∃ a, log = [(c, a)] ∧ out = .ok a := by
  constructor
  · intro h
    cases h with
    | ask c a h =>
      cases h
      exact ⟨a, rfl, rfl⟩
  · rintro ⟨a, rfl, rfl⟩
    exact .ask c a (.done a)

/-- **A run of a sequence** is one of its first part, and of the second when that has ended. -/
theorem runs_bind {out : Except E β} :
    Runs (p >>= f) log out ↔ (∃ e, Runs p log (.error e) ∧ out = .error e) ∨
      ∃ a before after, Runs p before (.ok a) ∧ Runs (f a) after out ∧ log = before ++ after := by
  constructor
  · intro h
    -- A run of a sequence is cut where its first part ends.
    induction p generalizing log with
    | done a => exact .inr ⟨a, [], log, .done a, h, rfl⟩
    | stop e =>
      obtain ⟨rfl, rfl⟩ := runs_stop.mp h
      exact .inl ⟨e, .stop e, rfl⟩
    | ask c next ih =>
      cases h with
      | ask c a h =>
        obtain ⟨e, he, rfl⟩ | ⟨b, before, after, hb, ha, rfl⟩ := ih a h
        · exact .inl ⟨e, .ask c a he, rfl⟩
        · exact .inr ⟨b, (c, a) :: before, after, .ask c a hb, ha, rfl⟩
  · rintro (⟨e, he, rfl⟩ | ⟨a, before, after, hp, hf, rfl⟩)
    · -- The first part ends in an error, and the second is not reached.
      induction p generalizing log with
      | done a => cases he
      | stop e' =>
        cases he
        exact .stop e
      | ask c next ih =>
        cases he with
        | ask c a he => exact .ask c a (ih a he)
    · induction p generalizing before with
      | done b =>
        cases hp
        exact hf
      | stop e => cases hp
      | ask c next ih =>
        cases hp with
        | ask c b hp => exact .ask c b (ih b _ hp)

/-- The results that the runs of a program end with. -/
def Returns (p : Dialogue C A E α) (a : α) : Prop := ∃ log, Runs p log (.ok a)

/-- A dialogue that is over returns its value only. -/
@[simp] theorem returns_pure {a b : α} : (pure a : Dialogue C A E α).Returns b ↔ b = a := by
  simp [Returns, eq_comm]

/-- A dialogue that stops returns no value. -/
@[simp] theorem returns_stop {e : E} {a : α} : ¬(stop e : Dialogue C A E α).Returns a := by
  simp [Returns]

/-- A lifted result returns its value, if it has one. -/
@[simp] theorem returns_lift {r : Except E α} {a : α} :
    (lift r : Dialogue C A E α).Returns a ↔ r = .ok a := by
  simp [Returns, eq_comm]

/-- A sequence returns what its second part does after a value of the first. -/
theorem returns_bind {b : β} :
    (p >>= f).Returns b ↔ ∃ a, p.Returns a ∧ (f a).Returns b := by
  constructor
  · rintro ⟨log, h⟩
    obtain ⟨e, -, he⟩ | ⟨a, before, after, hb, ha, -⟩ := runs_bind.mp h
    · cases he
    · exact ⟨a, ⟨before, hb⟩, after, ha⟩
  · rintro ⟨a, ⟨before, hb⟩, after, ha⟩
    exact ⟨before ++ after, runs_bind.mpr (.inr ⟨a, before, after, hb, ha, rfl⟩)⟩

/-! ## The commands of a program -/

/-- Every command of every run is one of `P`. -/
def Sends (P : C → Prop) (p : Dialogue C A E α) : Prop :=
  ∀ log out, Runs p log out → ∀ e ∈ log, P e.1

section

variable {P Q : C → Prop}

/-- A dialogue that is over sends no command that it may not. -/
theorem sends_pure (a : α) : Sends P (pure a : Dialogue C A E α) := by
  intro log out h
  simp [(runs_pure.mp h).1]

/-- A dialogue that stops sends no command that it may not. -/
theorem sends_stop (e : E) : Sends P (stop e : Dialogue C A E α) := by
  intro log out h
  simp [(runs_stop.mp h).1]

/-- A lifted result sends no command that it may not. -/
theorem sends_lift (r : Except E α) : Sends P (lift r : Dialogue C A E α) := by
  intro log out h
  simp [(runs_lift.mp h).1]

/-- A single command may be sent when it has the property. -/
theorem sends_send {c : C} (h : P c) : Sends P (send c : Dialogue C A E A) := by
  intro log out hr
  obtain ⟨a, rfl, -⟩ := runs_send.mp hr
  simpa using h

/-- A sequence sends only such commands when both parts do, the second after every value of the
first. -/
theorem Sends.bind (hp : Sends P p) (hf : ∀ a, p.Returns a → Sends P (f a)) : Sends P (p >>= f) := by
  intro log out h e he
  obtain ⟨x, hx, -⟩ | ⟨a, before, after, hb, ha, rfl⟩ := runs_bind.mp h
  · exact hp _ _ hx e he
  · obtain hmem | hmem := List.mem_append.mp he
    · exact hp _ _ hb e hmem
    · exact hf a ⟨_, hb⟩ _ _ ha e hmem

/-- A branch sends only such commands when each side does under its condition. -/
theorem Sends.ite {b : Prop} [Decidable b] {p q : Dialogue C A E α} (hp : b → Sends P p)
    (hq : ¬ b → Sends P q) : Sends P (if b then p else q) := by
  split
  · next h => exact hp h
  · next h => exact hq h

/-- An optional part sends only such commands when it does under its condition. -/
theorem Sends.when {b : Prop} [Decidable b] {p : Dialogue C A E PUnit} (hp : b → Sends P p) :
    Sends P (p.when b) := .ite hp fun _ => sends_pure _

/-- The property of the commands can be weakened. -/
theorem Sends.imp (h : Sends P p) (hPQ : ∀ c, P c → Q c) : Sends Q p :=
  fun log out hr e he => hPQ e.1 (h log out hr e he)

end

/-! ## Bad answers end the run -/

/-- An exchange that is `bad` is the last one of its run, which stops with `x`. -/
def Heeds (bad : C × A → Prop) (x : E) (p : Dialogue C A E α) : Prop :=
  ∀ log out, Runs p log out → ∀ before e after, log = before ++ e :: after → bad e →
    after = [] ∧ out = .error x

section

variable {bad : C × A → Prop} {x : E}

/-- A dialogue none of whose commands can be answered badly heeds bad answers. -/
theorem Sends.heeds {P : C → Prop} (h : Sends P p) (hP : ∀ c a, P c → ¬ bad (c, a)) :
    Heeds bad x p := by
  rintro log out hr before e after rfl hbad
  exact absurd hbad (hP e.1 e.2 (h _ _ hr e (by simp)))

/-- A sequence heeds bad answers when both parts do, the second after every value of the first. -/
theorem Heeds.bind (hp : Heeds bad x p) (hf : ∀ a, p.Returns a → Heeds bad x (f a)) :
    Heeds bad x (p >>= f) := by
  intro log out h l e l' hlog hbad
  obtain ⟨y, hy, rfl⟩ | ⟨a, before, after, hb, ha, rfl⟩ := runs_bind.mp h
  · obtain ⟨rfl, hxy⟩ := hp _ _ hy l e l' hlog hbad
    cases hxy
    exact ⟨rfl, rfl⟩
  · -- The first part has ended, so that none of its exchanges is bad.
    obtain ⟨m, rfl, hm⟩ | ⟨m, rfl, hm⟩ := List.append_eq_append_iff.mp hlog
    · exact hf a ⟨_, hb⟩ _ _ ha m e l' hm hbad
    · cases m with
      | nil => exact hf a ⟨_, hb⟩ _ _ ha [] e l' hm.symm hbad
      | cons e' m =>
        obtain ⟨rfl, rfl⟩ := List.cons.inj hm
        exact absurd (hp _ _ hb l e m rfl hbad).2 (by simp)

/-- A branch heeds bad answers when each side does under its condition. -/
theorem Heeds.ite {b : Prop} [Decidable b] {p q : Dialogue C A E α} (hp : b → Heeds bad x p)
    (hq : ¬ b → Heeds bad x q) : Heeds bad x (if b then p else q) := by
  split
  · next h => exact hp h
  · next h => exact hq h

/-- An optional part heeds bad answers when it does under its condition. -/
theorem Heeds.when {b : Prop} [Decidable b] {p : Dialogue C A E PUnit} (hp : b → Heeds bad x p) :
    Heeds bad x (p.when b) := by
  refine .ite hp fun _ => ?_
  exact (sends_pure (P := fun _ => False) _).heeds fun _ _ h => h.elim

end

/-! ## The commands of a kind -/

/-- The commands of `log` that are of the kind `sel`. -/
def sent (sel : C → Bool) (log : List (C × A)) : List C := (log.map Prod.fst).filter sel

/-- An empty log has no selected commands. -/
@[simp] theorem sent_nil (sel : C → Bool) : sent sel ([] : List (C × A)) = [] := rfl

/-- The selected commands of two logs in a row are those of the first, then those of the second. -/
@[simp] theorem sent_append (sel : C → Bool) (l l' : List (C × A)) :
    sent sel (l ++ l') = sent sel l ++ sent sel l' := by
  simp [sent]

/-- The commands of the kind `sel` in a run are the first ones of `cs`, and all of them when the
run ends. -/
def Follows (sel : C → Bool) (cs : List C) (p : Dialogue C A E α) : Prop :=
  ∀ log out, Runs p log out → sent sel log <+: cs ∧ ∀ a, out = .ok a → sent sel log = cs

section

variable {sel : C → Bool} {cs cs' : List C}

/-- A dialogue that is over follows the empty plan. -/
theorem follows_pure (a : α) : Follows sel [] (pure a : Dialogue C A E α) := by
  intro log out h
  obtain ⟨rfl, -⟩ := runs_pure.mp h
  exact ⟨List.prefix_rfl, fun _ _ => rfl⟩

/-- A lifted result follows the empty plan. -/
theorem follows_lift (r : Except E α) : Follows sel [] (lift r : Dialogue C A E α) := by
  intro log out h
  obtain ⟨rfl, -⟩ := runs_lift.mp h
  exact ⟨List.prefix_rfl, fun _ _ => rfl⟩

/-- A dialogue that stops follows every plan: it sends nothing and never returns. -/
theorem follows_stop (e : E) : Follows sel cs (stop e : Dialogue C A E α) := by
  intro log out h
  obtain ⟨rfl, rfl⟩ := runs_stop.mp h
  simp

/-- A program without commands of the kind follows the empty plan. -/
theorem Sends.follows {P : C → Prop} (h : Sends P p) (hP : ∀ c, P c → sel c = false) :
    Follows sel [] p := by
  intro log out hr
  have hnil : sent sel log = [] := by
    rw [sent, List.filter_eq_nil_iff]
    intro c hc
    obtain ⟨e, he, rfl⟩ := List.mem_map.mp hc
    simp [hP e.1 (h _ _ hr e he)]
  rw [hnil]
  exact ⟨List.prefix_rfl, fun _ _ => rfl⟩

/-- A single selected command follows the plan of that command. -/
theorem follows_send {c : C} (h : sel c = true) : Follows sel [c] (send c : Dialogue C A E A) := by
  intro log out hr
  obtain ⟨a, rfl, rfl⟩ := runs_send.mp hr
  have hc : sent sel [(c, a)] = [c] := by simp [sent, h]
  rw [hc]
  exact ⟨List.prefix_rfl, fun _ _ => rfl⟩

/-- A sequence follows the plan of its first part, then the plan of its second. -/
theorem Follows.bind (hp : Follows sel cs p) (hf : ∀ a, p.Returns a → Follows sel cs' (f a)) :
    Follows sel (cs ++ cs') (p >>= f) := by
  intro log out h
  obtain ⟨e, he, rfl⟩ | ⟨a, before, after, hb, ha, rfl⟩ := runs_bind.mp h
  · exact ⟨(hp _ _ he).1.trans (List.prefix_append _ _), by simp⟩
  · obtain ⟨hpre, hall⟩ := hf a ⟨_, hb⟩ _ _ ha
    rw [sent_append, (hp _ _ hb).2 a rfl]
    exact ⟨(List.prefix_append_right_inj _).mpr hpre, fun b hb => by rw [hall b hb]⟩

/-- A first part without commands of the kind leaves the plan of the second. -/
theorem Follows.nil_bind (hp : Follows sel [] p) (hf : ∀ a, p.Returns a → Follows sel cs (f a)) :
    Follows sel cs (p >>= f) := hp.bind hf

/-- A second part without commands of the kind leaves the plan of the first. -/
theorem Follows.bind_nil (hp : Follows sel cs p) (hf : ∀ a, p.Returns a → Follows sel [] (f a)) :
    Follows sel cs (p >>= f) := by
  rw [← List.append_nil cs]
  exact hp.bind hf

/-- A branch follows the plan of the side that is taken. -/
theorem Follows.ite {b : Prop} [Decidable b] {p q : Dialogue C A E α} (hp : b → Follows sel cs p)
    (hq : ¬ b → Follows sel cs' q) : Follows sel (if b then cs else cs') (if b then p else q) := by
  split
  · next h => exact hp h
  · next h => exact hq h

/-- An optional part follows its plan when it is run, and the empty plan when not. -/
theorem Follows.when {b : Prop} [Decidable b] {p : Dialogue C A E PUnit}
    (hp : b → Follows sel cs p) : Follows sel (if b then cs else []) (p.when b) :=
  .ite hp fun _ => follows_pure _

end

/-! ## Monitors -/

section

variable {σ : Type u} {step : σ → C × A → σ} {allows : σ → C → Prop}

/-- Every command of the log is allowed in the state of the monitor in which it is sent. -/
def Allowed (step : σ → C × A → σ) (allows : σ → C → Prop) : σ → List (C × A) → Prop
  | _, [] => True
  | s, e :: log => allows s e.1 ∧ Allowed step allows (step s e) log

/-- A log of two parts is allowed when the first is, and the second from the state behind it. -/
theorem allowed_append (s : σ) (l l' : List (C × A)) :
    Allowed step allows s (l ++ l') ↔
      Allowed step allows s l ∧ Allowed step allows (l.foldl step s) l' := by
  induction l generalizing s with
  | nil => simp [Allowed]
  | cons e l ih => simp [Allowed, ih, and_assoc]

/-- From a state of `I` every run is allowed, and one that ends with `a` leaves a state of `Q a`. -/
def Guarded (step : σ → C × A → σ) (allows : σ → C → Prop) (I : σ → Prop)
    (p : Dialogue C A E α) (Q : α → σ → Prop) : Prop :=
  ∀ s, I s → ∀ log out, Runs p log out →
    Allowed step allows s log ∧ ∀ a, out = .ok a → Q a (log.foldl step s)

variable {I J : σ → Prop} {Q : α → σ → Prop} {R : β → σ → Prop}

/-- A dialogue that is over is guarded when its value meets the postcondition at once. -/
theorem guarded_pure {a : α} (h : ∀ s, I s → Q a s) :
    Guarded step allows I (pure a : Dialogue C A E α) Q := by
  intro s hs log out hr
  obtain ⟨rfl, rfl⟩ := runs_pure.mp hr
  refine ⟨trivial, fun b hb => ?_⟩
  cases hb
  exact h s hs

/-- A lifted result is guarded and keeps the state. -/
theorem guarded_lift (r : Except E α) :
    Guarded step allows I (lift r : Dialogue C A E α) fun _ => I := by
  intro s hs log out hr
  obtain ⟨rfl, -⟩ := runs_lift.mp hr
  exact ⟨trivial, fun _ _ => hs⟩

/-- A dialogue that stops is guarded, with any postcondition. -/
theorem guarded_stop (e : E) : Guarded step allows I (stop e : Dialogue C A E α) Q := by
  intro s hs log out h
  obtain ⟨rfl, rfl⟩ := runs_stop.mp h
  exact ⟨trivial, by simp⟩

/-- A single command is guarded when it is allowed in every state of the precondition. -/
theorem guarded_send {c : C} (h : ∀ s, I s → allows s c) :
    Guarded step allows I (send c : Dialogue C A E A) fun a s => ∃ s', I s' ∧ s = step s' (c, a) := by
  intro s hs log out hr
  obtain ⟨a, rfl, rfl⟩ := runs_send.mp hr
  refine ⟨⟨h s hs, trivial⟩, fun b hb => ?_⟩
  cases hb
  exact ⟨s, hs, rfl⟩

/-- Commands that are allowed wherever `I` holds, and keep it. -/
theorem Sends.guarded {P : C → Prop} (h : Sends P p)
    (hI : ∀ s c a, I s → P c → allows s c ∧ I (step s (c, a))) :
    Guarded step allows I p fun _ => I := by
  intro s hs log out hr
  have hP := h _ _ hr
  clear hr
  induction log generalizing s with
  | nil => exact ⟨trivial, fun _ _ => hs⟩
  | cons e log ih =>
    obtain ⟨hallow, hstep⟩ := hI s e.1 e.2 hs (hP e (List.mem_cons_self ..))
    obtain ⟨hrest, hend⟩ := ih _ hstep fun e he => hP e (List.mem_cons_of_mem _ he)
    exact ⟨⟨hallow, hrest⟩, hend⟩

/-- A sequence is guarded when the second part is from the postcondition of the first. -/
theorem Guarded.bind (hp : Guarded step allows I p Q)
    (hf : ∀ a, p.Returns a → Guarded step allows (Q a) (f a) R) :
    Guarded step allows I (p >>= f) R := by
  intro s hs log out h
  obtain ⟨e, he, rfl⟩ | ⟨a, before, after, hb, ha, rfl⟩ := runs_bind.mp h
  · exact ⟨(hp s hs _ _ he).1, by simp⟩
  · obtain ⟨hallow, hq⟩ := hp s hs _ _ hb
    obtain ⟨hallow', hr⟩ := hf a ⟨_, hb⟩ _ (hq a rfl) _ _ ha
    rw [allowed_append, List.foldl_append]
    exact ⟨⟨hallow, hallow'⟩, hr⟩

/-- A branch is guarded when each side is under its condition. -/
theorem Guarded.ite {b : Prop} [Decidable b] {p q : Dialogue C A E α}
    (hp : b → Guarded step allows I p Q) (hq : ¬ b → Guarded step allows I q Q) :
    Guarded step allows I (if b then p else q) Q := by
  split
  · next h => exact hp h
  · next h => exact hq h

/-- An optional part is guarded when it is under its condition, and nothing is needed without it. -/
theorem Guarded.when {b : Prop} [Decidable b] {p : Dialogue C A E PUnit} {Q : σ → Prop}
    (hp : b → Guarded step allows I p fun _ => Q) (hq : ¬ b → ∀ s, I s → Q s) :
    Guarded step allows I (p.when b) fun _ => Q := .ite hp fun h => guarded_pure (hq h)

/-- The precondition can be strengthened, and the postcondition weakened. -/
theorem Guarded.imp {Q' : α → σ → Prop} (h : Guarded step allows I p Q) (hJ : ∀ s, J s → I s)
    (hQ : ∀ a s, Q a s → Q' a s) : Guarded step allows J p Q' := by
  intro s hs log out hr
  obtain ⟨hallow, hend⟩ := h s (hJ s hs) log out hr
  exact ⟨hallow, fun a ha => hQ a _ (hend a ha)⟩

end

end Dialogue

end AmlogicToolkit
