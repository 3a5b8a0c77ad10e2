import Mathlib.Logic.Relation

/-!
# Programs against a device

A program reads and writes the registers of a device, which also moves on its own between any two
accesses. `Device.Reaches` is every interleaving of the two.

`Prog.wp` is the weakest precondition of a program under this interference: it is closed under the
moves of the device (`wp_of_moved`), composes along `Prog.bind` (`wp_bind`), and holds exactly where
no interleaving makes a write that its guard forbids or ends outside its postcondition (`wp_iff`).
`wp_frame` adds what the writes of a program keep, and `wp_alone` says what a program returns that
does not disturb what it reads. `Client.wp_prog` carries an invariant of a driver's calls to every
client of it; `Device.logged` is the device with a history of what was written.
-/

namespace Mmio

variable {α ω δ β γ : Type*}

inductive Prog (α ω β : Type*) where
  | ret (b : β)
  | read (a : α) (k : ω → Prog α ω β)
  | write (a : α) (x : ω) (p : Prog α ω β)
  /-- Reads of one register up to the first that is accepted. -/
  | poll (a : α) (accepts : ω → Bool) (p : Prog α ω β)

structure Device (α ω δ : Type*) where
  read : δ → α → ω
  /-- What a read leaves. -/
  seen : δ → α → δ
  write : δ → α → ω → δ
  /-- What the device does on its own. -/
  moves : δ → δ → Prop

namespace Prog

def bind : Prog α ω β → (β → Prog α ω γ) → Prog α ω γ
  | ret b, g => g b
  | read a k, g => read a fun x => (k x).bind g
  | write a x p, g => write a x (p.bind g)
  | poll a accepts p, g => poll a accepts (p.bind g)

instance : Monad (Prog α ω) where
  pure := ret
  bind := bind

@[simp] theorem pure_eq (b : β) : (pure b : Prog α ω β) = ret b := rfl

@[simp] theorem bind_eq {β γ : Type _} (p : Prog α ω β) (g : β → Prog α ω γ) :
    (p >>= g) = p.bind g := rfl

variable (a : α) (accepts : ω → Bool) (x : ω) (b : β) (p : Prog α ω β) (k : ω → Prog α ω β)
  (g : β → Prog α ω γ)

@[simp] theorem ret_bind : (ret b : Prog α ω β).bind g = g b := rfl

@[simp] theorem read_bind : (read a k).bind g = read a fun x => (k x).bind g := rfl

@[simp] theorem write_bind : (write a x p).bind g = write a x (p.bind g) := rfl

@[simp] theorem poll_bind : (poll a accepts p).bind g = poll a accepts (p.bind g) := rfl

end Prog

namespace Device

variable (dev : Device α ω δ)

/-- A step of the program or of the device. -/
inductive Step : Prog α ω β → δ → Prog α ω β → δ → Prop where
  | moves {p : Prog α ω β} {d e : δ} (h : dev.moves d e) : Step p d p e
  | read {a : α} {k : ω → Prog α ω β} {d : δ} :
      Step (.read a k) d (k (dev.read d a)) (dev.seen d a)
  | write {a : α} {x : ω} {p : Prog α ω β} {d : δ} :
      Step (.write a x p) d p (dev.write d a x)
  | again {a : α} {accepts : ω → Bool} {p : Prog α ω β} {d : δ}
      (h : accepts (dev.read d a) = false) :
      Step (.poll a accepts p) d (.poll a accepts p) (dev.seen d a)
  | accept {a : α} {accepts : ω → Bool} {p : Prog α ω β} {d : δ}
      (h : accepts (dev.read d a) = true) :
      Step (.poll a accepts p) d p (dev.seen d a)

inductive Reaches : Prog α ω β → δ → Prog α ω β → δ → Prop where
  | refl {p : Prog α ω β} {d : δ} : Reaches p d p d
  | step {p q r : Prog α ω β} {d e f : δ} (h : dev.Step p d q e) (hrest : Reaches q e r f) :
      Reaches p d r f

/-- The device alone, any number of moves. -/
def Moved : δ → δ → Prop := Relation.ReflTransGen dev.moves

/-- A round of a wait that does not end it. -/
def Round (a : α) (accepts : ω → Bool) (d e : δ) : Prop :=
  dev.moves d e ∨ (accepts (dev.read d a) = false ∧ e = dev.seen d a)

def Waits (a : α) (accepts : ω → Bool) : δ → δ → Prop :=
  Relation.ReflTransGen (dev.Round a accepts)

/-- The device with everything that was written to it, in its order. -/
def logged : Device α ω (δ × List (α × ω)) where
  read d a := dev.read d.1 a
  seen d a := (dev.seen d.1 a, d.2)
  write d a x := (dev.write d.1 a x, d.2 ++ [(a, x)])
  moves d e := dev.moves d.1 e.1 ∧ e.2 = d.2

variable {dev} {p q r : Prog α ω β} {d e f : δ} {a : α} {accepts : ω → Bool}
  {W : α → Prop} {Inv : δ → Prop}

theorem Reaches.trans (h : dev.Reaches p d q e) (h' : dev.Reaches q e r f) :
    dev.Reaches p d r f := by
  induction h with
  | refl => exact h'
  | step hstep _ ih => exact .step hstep (ih h')

theorem reaches_of_moved (h : dev.Moved d e) : dev.Reaches p d p e := by
  induction h with
  | refl => exact .refl
  | tail _ hmove ih => exact ih.trans (.step (.moves hmove) .refl)

theorem reaches_of_waits (h : dev.Waits a accepts d e) :
    dev.Reaches (.poll a accepts p) d (.poll a accepts p) e := by
  induction h with
  | refl => exact .refl
  | tail _ hround ih =>
    rcases hround with hmove | ⟨hno, rfl⟩
    · exact ih.trans (.step (.moves hmove) .refl)
    · exact ih.trans (.step (.again hno) .refl)

variable (dev) in
/-- What the device, reads, and writes to the registers `W` keep. -/
structure Keeps (W : α → Prop) (Inv : δ → Prop) : Prop where
  moves : ∀ d e, Inv d → dev.moves d e → Inv e
  seen : ∀ d a, Inv d → Inv (dev.seen d a)
  write : ∀ d a x, Inv d → W a → Inv (dev.write d a x)

theorem Keeps.moved (h : dev.Keeps W Inv) (hd : Inv d) (hmoved : dev.Moved d e) : Inv e := by
  induction hmoved with
  | refl => exact hd
  | tail _ hmove ih => exact h.moves _ _ ih hmove

theorem Keeps.waits (h : dev.Keeps W Inv) (hd : Inv d)
    (hwaits : dev.Waits a accepts d e) : Inv e := by
  induction hwaits with
  | refl => exact hd
  | tail _ hround ih =>
    rcases hround with hmove | ⟨-, rfl⟩
    · exact h.moves _ _ ih hmove
    · exact h.seen _ a ih

end Device

namespace Prog

variable (dev : Device α ω δ) (guard : δ → α → ω → Prop)

/-- From `d` every write finds its guard and every end the postcondition, whatever the device does
in between. -/
def wp : Prog α ω β → (β → δ → Prop) → δ → Prop
  | ret b, Q, d => ∀ e, dev.Moved d e → Q b e
  | read a k, Q, d => ∀ e, dev.Moved d e → (k (dev.read e a)).wp Q (dev.seen e a)
  | write a x p, Q, d => ∀ e, dev.Moved d e → guard e a x ∧ p.wp Q (dev.write e a x)
  | poll a accepts p, Q, d => ∀ e, dev.Waits a accepts d e → accepts (dev.read e a) = true →
      p.wp Q (dev.seen e a)

/-- What a state of an interleaving must meet on its own. -/
def Meets (Q : β → δ → Prop) : Prog α ω β → δ → Prop
  | ret b, d => Q b d
  | read _ _, _ => True
  | write a x _, d => guard d a x
  | poll _ _ _, _ => True

variable {dev} {guard} {p q : Prog α ω β} {Q Q' : β → δ → Prop} {d e : δ}

theorem wp_of_moves (h : p.wp dev guard Q d) (hmove : dev.moves d e) : p.wp dev guard Q e := by
  have hmoved : ∀ f, dev.Moved e f → dev.Moved d f := fun f hf => .head hmove hf
  cases p with
  | ret b => exact fun f hf => h f (hmoved f hf)
  | read a k => exact fun f hf => h f (hmoved f hf)
  | write a x p => exact fun f hf => h f (hmoved f hf)
  | poll a accepts p => exact fun f hf => h f (.head (.inl hmove) hf)

theorem wp_of_moved (h : p.wp dev guard Q d) (hmoved : dev.Moved d e) : p.wp dev guard Q e := by
  induction hmoved with
  | refl => exact h
  | tail _ hmove ih => exact wp_of_moves ih hmove

theorem wp_of_step (h : p.wp dev guard Q d) (hstep : dev.Step p d q e) : q.wp dev guard Q e := by
  cases hstep with
  | moves hmove => exact wp_of_moves h hmove
  | read => exact h d .refl
  | write => exact (h d .refl).2
  | again hno => exact fun f hf hyes => h f (.head (.inr ⟨hno, rfl⟩) hf) hyes
  | accept hyes => exact h d .refl hyes

theorem wp_of_reaches (h : p.wp dev guard Q d) (hreach : dev.Reaches p d q e) :
    q.wp dev guard Q e := by
  induction hreach with
  | refl => exact h
  | step hstep _ ih => exact ih (wp_of_step h hstep)

theorem meets_of_wp (h : p.wp dev guard Q d) : p.Meets guard Q d := by
  cases p with
  | ret b => exact h d .refl
  | read a k => trivial
  | write a x p => exact (h d .refl).1
  | poll a accepts p => trivial

/-- **The precondition is the weakest.** -/
theorem wp_iff : p.wp dev guard Q d ↔ ∀ q e, dev.Reaches p d q e → q.Meets guard Q e := by
  constructor
  · exact fun h q e hreach => meets_of_wp (wp_of_reaches h hreach)
  · intro h
    induction p generalizing d with
    | ret b =>
      intro e hmoved
      exact h (.ret b) e (Device.reaches_of_moved hmoved)
    | read a k ih =>
      intro e hmoved
      apply ih
      intro q f hreach
      exact h q f ((Device.reaches_of_moved hmoved).trans (.step .read hreach))
    | write a x p ih =>
      intro e hmoved
      have hhere := Device.reaches_of_moved (p := write a x p) hmoved
      refine ⟨h _ e hhere, ih ?_⟩
      intro q f hreach
      exact h q f (hhere.trans (.step .write hreach))
    | poll a accepts p ih =>
      intro e hwaits hyes
      apply ih
      intro q f hreach
      exact h q f ((Device.reaches_of_waits hwaits).trans (.step (.accept hyes) hreach))

theorem wp_mono (hQ : ∀ b e, Q b e → Q' b e) (h : p.wp dev guard Q d) :
    p.wp dev guard Q' d := by
  induction p generalizing d with
  | ret b => exact fun e he => hQ b e (h e he)
  | read a k ih => exact fun e he => ih _ (h e he)
  | write a x p ih => exact fun e he => ⟨(h e he).1, ih (h e he).2⟩
  | poll a accepts p ih => exact fun e he hyes => ih (h e he hyes)

theorem wp_bind {Q : γ → δ → Prop} {g : β → Prog α ω γ} :
    (p.bind g).wp dev guard Q d ↔ p.wp dev guard (fun b => (g b).wp dev guard Q) d := by
  induction p generalizing d with
  | ret b => exact ⟨fun h e he => wp_of_moved h he, fun h => h d .refl⟩
  | read a k ih => exact forall_congr' fun e => forall_congr' fun _ => ih _
  | write a x p ih =>
    exact forall_congr' fun e => forall_congr' fun _ => and_congr_right fun _ => ih
  | poll a accepts p ih =>
    exact forall_congr' fun e => forall_congr' fun _ => forall_congr' fun _ => ih

theorem wp_true : p.wp dev (fun _ _ _ => True) (fun _ _ => True) d :=
  wp_iff.mpr fun q _ _ => by cases q <;> trivial

/-- The run in which the device makes no move and every poll ends at its first read. -/
def exec (dev : Device α ω δ) : Prog α ω β → δ → Option (β × δ)
  | ret b, d => some (b, d)
  | read a k, d => (k (dev.read d a)).exec dev (dev.seen d a)
  | write a x p, d => p.exec dev (dev.write d a x)
  | poll a accepts p, d => if accepts (dev.read d a) then p.exec dev (dev.seen d a) else none

theorem reaches_exec {b : β} (h : p.exec dev d = some (b, e)) : dev.Reaches p d (.ret b) e := by
  induction p generalizing d with
  | ret b =>
    cases h
    exact .refl
  | read a k ih => exact .step .read (ih _ h)
  | write a x p ih => exact .step .write (ih h)
  | poll a accepts p ih =>
    unfold exec at h
    split at h
    case isTrue hyes => exact .step (.accept hyes) (ih h)
    case isFalse => cases h

/-! ### Frames -/

/-- The program reads and writes no other registers. -/
def Uses (R W : α → Prop) : Prog α ω β → Prop
  | ret _ => True
  | read a k => R a ∧ ∀ x, (k x).Uses R W
  | write a _ p => W a ∧ p.Uses R W
  | poll a _ p => R a ∧ p.Uses R W

variable {R W : α → Prop} {Inv : δ → Prop} {words : α → ω}

theorem uses_bind {g : β → Prog α ω γ} (hp : p.Uses R W) (hg : ∀ b, (g b).Uses R W) :
    (p.bind g).Uses R W := by
  induction p with
  | ret b => exact hg b
  | read a k ih => exact ⟨hp.1, fun x => ih x (hp.2 x)⟩
  | write a x p ih => exact ⟨hp.1, ih hp.2⟩
  | poll a accepts p ih => exact ⟨hp.1, ih hp.2⟩

theorem Uses.mono {R' : α → Prop} (h : p.Uses R W) (hR : ∀ a, R a → R' a) : p.Uses R' W := by
  induction p with
  | ret b => trivial
  | read a k ih => exact ⟨hR a h.1, fun x => ih x (h.2 x)⟩
  | write a x p ih => exact ⟨h.1, ih h.2⟩
  | poll a accepts p ih => exact ⟨hR a h.1, ih h.2⟩

/-- **The frame rule.** -/
theorem wp_frame (hkeeps : dev.Keeps W Inv) (huses : p.Uses R W) (hd : Inv d)
    (h : p.wp dev guard Q d) : p.wp dev guard (fun b e => Q b e ∧ Inv e) d := by
  induction p generalizing d with
  | ret b => exact fun e he => ⟨h e he, hkeeps.moved hd he⟩
  | read a k ih =>
    intro e he
    exact ih _ (huses.2 _) (hkeeps.seen e a (hkeeps.moved hd he)) (h e he)
  | write a x p ih =>
    intro e he
    exact ⟨(h e he).1, ih huses.2 (hkeeps.write e a x (hkeeps.moved hd he) huses.1) (h e he).2⟩
  | poll a accepts p ih =>
    intro e he hyes
    exact ih huses.2 (hkeeps.seen e a (hkeeps.waits hd he)) (h e he hyes)

/-- What a program returns where every register always reads the same. -/
def alone (words : α → ω) : Prog α ω β → Option β
  | ret b => some b
  | read a k => (k (words a)).alone words
  | write _ _ p => p.alone words
  | poll a accepts p => if accepts (words a) then p.alone words else none

/-- A program that does not disturb what it reads is not disturbed. -/
theorem wp_alone (hkeeps : dev.Keeps W fun d => ∀ a, R a → dev.read d a = words a)
    (huses : p.Uses R W) (hd : ∀ a, R a → dev.read d a = words a) :
    p.wp dev (fun _ _ _ => True) (fun b _ => p.alone words = some b) d := by
  induction p generalizing d with
  | ret b => exact fun _ _ => rfl
  | read a k ih =>
    intro e he
    have hwords := hkeeps.moved hd he
    rw [alone, ← hwords a huses.1]
    exact ih _ (huses.2 _) (hkeeps.seen e a hwords)
  | write a x p ih =>
    intro e he
    exact ⟨trivial, ih huses.2 (hkeeps.write e a x (hkeeps.moved hd he) huses.1)⟩
  | poll a accepts p ih =>
    intro e he hyes
    have hwords := hkeeps.waits hd he
    rw [alone, ← hwords a huses.1, if_pos hyes]
    exact ih huses.2 (hkeeps.seen e a hwords)

end Prog

/-! ## Clients of a driver -/

variable {σ ι ο : Type}

/-- What a client calls next may depend on the answers before. -/
inductive Client (ι ο : Type) where
  | stop
  | call (c : ι) (next : ο → Client ι ο)

/-- The calls with their answers. -/
abbrev History (ι ο : Type) := List (ι × ο)

namespace Client

/-- The client over a driver whose state goes from call to call. -/
def prog (call : σ → ι → Prog α ω (σ × ο)) :
    Client ι ο → σ → History ι ο → Prog α ω (σ × History ι ο)
  | stop, s, history => .ret (s, history)
  | .call c next, s, history =>
    (call s c).bind fun r => (next r.2).prog call r.1 (history ++ [(c, r.2)])

variable {call : σ → ι → Prog α ω (σ × ο)} {dev : Device α ω δ} {guard : δ → α → ω → Prop}
  {s s' : σ} {history : History ι ο} {d e : δ}

/-- **The rule for clients**: what every call keeps holds wherever a client stops. -/
theorem wp_prog (Inv : σ → History ι ο → δ → Prop)
    (hmoved : ∀ s history d e, Inv s history d → dev.Moved d e → Inv s history e)
    (hcall : ∀ s history d c, Inv s history d →
      (call s c).wp dev guard (fun r e => Inv r.1 (history ++ [(c, r.2)]) e) d)
    (client : Client ι ο) (h : Inv s history d) :
    (client.prog call s history).wp dev guard (fun r => Inv r.1 r.2) d := by
  induction client generalizing s history d with
  | stop => exact fun e he => hmoved _ _ _ _ h he
  | call c next ih =>
    rw [prog, Prog.wp_bind]
    exact Prog.wp_mono (fun r e hr => ih r.2 hr) (hcall _ _ _ c h)

theorem inv_of_reaches (Inv : σ → History ι ο → δ → Prop) {client : Client ι ο}
    (hmoved : ∀ s history d e, Inv s history d → dev.Moved d e → Inv s history e)
    (hcall : ∀ s history d c, Inv s history d →
      (call s c).wp dev (fun _ _ _ => True) (fun r e => Inv r.1 (history ++ [(c, r.2)]) e) d)
    (h : Inv s [] d) (hreach : dev.Reaches (client.prog call s []) d (.ret (s', history)) e) :
    Inv s' history e :=
  Prog.wp_iff.mp (wp_prog Inv hmoved hcall client h) _ e hreach

end Client

end Mmio
