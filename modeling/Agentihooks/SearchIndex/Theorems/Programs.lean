import Agentihooks.Library.Rely
import Agentihooks.SearchIndex.System
import Agentihooks.SearchIndex.Theorems.Tables

-- The commands that the calls come to, and what a build reads and makes of it.

namespace SearchIndex

open Interleaved (Steps Rely)

variable {domain uid : String} {grant : Grant} {call : Call} {t : Tables}

-- Which calls issue the commands that others act on.
def Issues (call : Call) : Command → Prop
  | .write ..       => ∃ grant uid parent policy, call = .build grant uid parent policy
  | .mark ..        => ∃ grant uid version, call = .validate grant uid version
  | .apply consumer .. => call = .replay consumer ∨ call = .catchUp
  | .retained ..    => (∃ grant id, call = .pack grant id) ∨ ∃ grant id, call = .lesson grant id
  | _               => True

abbrev Issued {α : Type} (call : Call) (p : Steps Reply α) (Q : α → Prop) : Prop :=
  p.Keeps (fun _ _ => True) (Issues call) Q

section Issues

variable {α : Type} {Q : α → Prop}

theorem issued_ask {command : Command} {next : Reply command → Steps Reply α} (h : Issues call command)
    (hn : ∀ reply, Issued call (next reply) Q) : Issued call (Steps.perform command >>= next) Q :=
  ⟨h, fun reply _ => hn reply⟩

theorem issued_ensure {q : Prop} [Decidable q] {next : Unit → Steps Reply α} (hn : Issued call (next ()) Q) :
    Issued call (Steps.ensure q >>= next) Q :=
  (Steps.keeps_ensure.mpr fun _ => trivial : Issued call (Steps.ensure q) fun _ => True).bind fun _ _ => hn

theorem issued_perform {command : Command} {succeeded : Reply command → Bool} (h : Issues call command) :
    Issued call (perform command succeeded) fun _ => True :=
  ⟨h, fun _ _ => Steps.keeps_ensure.mpr fun _ => trivial⟩

theorem issued_each {α β : Type} {f : α → Steps Reply β} {as : List α} (h : ∀ a ∈ as, Issued call (f a) fun _ => True) :
    Issued call (Steps.each f as) fun _ => True :=
  (Steps.keeps_each h).imp fun _ _ => trivial

theorem issued_readable : Issued call (readable domain grant uid) fun _ => True := by
  refine issued_ensure (issued_ask trivial fun found => issued_ensure (issued_ask trivial fun names => ?_))
  exact issued_each fun name _ => issued_ask trivial fun events => issued_ensure trivial

theorem issued_rounds {limits : Limits} {model : EmbeddingModel} {index : String} {n : ℕ} :
    Issued call (rounds limits model index n) fun _ => True := by
  induction n with
  | zero      => trivial
  | succ n ih =>
    refine issued_ask trivial fun _ => issued_ask trivial fun rows => ?_
    dsimp only
    split
    case isTrue  => trivial
    case isFalse =>
      refine issued_ask trivial fun answer => ?_
      split
      case h_1 => exact issued_perform trivial
      case h_2 => exact issued_ensure (issued_ask trivial fun _ => ih)

theorem issued_replay {consumer : Consumer} (h : call = .replay consumer ∨ call = .catchUp) :
    Issued call (replay consumer) fun _ => True := by
  refine issued_ask trivial fun through => issued_ask trivial fun rows => ?_
  have hrows : Issued call (Steps.each (applied consumer) rows) fun _ => True := issued_each fun row _ => ⟨h, fun _ _ => trivial⟩
  exact hrows.bind fun _ _ => trivial

theorem issued_allRetained {uids : List String} (h : ∃ grant id, call = .pack grant id) :
    Issued call (allRetained uids) fun _ => True := by
  induction uids with
  | nil              => trivial
  | cons uid uids ih =>
    refine issued_ask (.inl h) fun found => ?_
    split
    case isTrue  => exact ih
    case isFalse => trivial

theorem issued_permitted {found uids : List String} (h : ∃ grant id, call = .lesson grant id) :
    Issued call (permitted found uids) fun _ => True := by
  induction uids generalizing found with
  | nil              => trivial
  | cons uid uids ih => exact issued_ask (.inr h) fun ok => ih

theorem issued_operation : Issued call (operation domain call) fun _ => True := by
  cases call with
  | build grant uid parent policy =>
    refine issued_readable.bind fun readings _ => issued_ensure ?_
    exact issued_ask ⟨grant, uid, parent, policy, rfl⟩ fun _ => Steps.keeps_ensure.mpr fun _ => trivial
  | validate grant uid version    =>
    refine issued_ask trivial fun found => issued_readable.bind fun _ _ => issued_ask trivial fun again => ?_
    refine issued_ensure (issued_ask trivial fun checked => issued_readable.bind fun evidence _ => issued_ensure ?_)
    split
    case h_1 => trivial
    case h_2 => exact issued_perform ⟨grant, uid, version, rfl⟩
  | drain limits embedder index   =>
    refine issued_ask trivial fun found => ?_
    split
    case h_1 => trivial
    case h_2 => exact issued_ensure issued_rounds
  | drop approval now             => exact issued_ensure (issued_perform trivial)
  | enqueue grant target now      => exact issued_ensure (issued_perform trivial)
  | replay consumer               => exact issued_replay (.inl rfl)
  | catchUp                       => exact (issued_each fun _ _ => issued_replay (.inr rfl)).bind fun _ _ => trivial
  | pack                          => trivial
  | lesson                        => trivial
  | _                             => exact issued_perform trivial

theorem issued_program : Issued call (program domain call) fun _ => True := by
  cases call with
  | pack grant id   =>
    refine issued_ask trivial fun found => ?_
    split
    case h_1 => trivial
    case h_2 => exact issued_ensure ((issued_allRetained ⟨grant, id, rfl⟩).bind fun ok _ => issued_ensure trivial)
  | lesson grant id =>
    refine issued_ask trivial fun found => ?_
    split
    case h_1 => trivial
    case h_2 =>
      refine issued_ensure ((issued_permitted ⟨grant, id, rfl⟩).bind fun support _ => ?_)
      split <;> trivial
  | _               => exact issued_operation.map fun _ _ => trivial

end Issues

section Effects

-- What a command does to the tables.
inductive Effect (t : Tables) : Command → Tables → Prop
  | keep {command : Command} : Effect t command t
  | read {uid generation : String} : Effect t (.events uid generation) (t.read uid generation)
  | register {source : SessionSource} {sessions : Dict String Session} {sources : Dict String (List (String × String))} :
    t.register source = some { t with sessions := sessions, sources := sources } →
    Effect t (.register source) { t with sessions := sessions, sources := sources }
  | ingest {uid generation : String} {events : List Event} {rejected : List Rejection} {t' : Tables} :
    t.ingest uid generation events rejected = some t' → Effect t (.ingest uid generation events rejected) t'
  | setState {uid : String} {state : SessionState} {revision now : ℕ} {session : Session} :
    Effect t (.setState uid state revision now) { t with
      sessions   := t.sessions.insert uid { session with state := state, revision := revision + 1 }
      tombstones := t.tombstones ++ [⟨uid, state, revision + 1, now⟩] }
  | write {uid : String} {policy : Policy} {fresh : Dict ChunkId Chunk} {through : Dict String ℕ} {readings : Readings}
    {t' : Tables} :
    t.write uid policy fresh through readings = .ok t' → Effect t (.write uid policy fresh through readings) t'
  | mark {uid version : String} {through : Dict String ℕ} {checked : Dict ChunkId Chunk} {t' : Tables} :
    t.mark uid version through = some t' → Effect t (.mark uid version through checked) t'
  | activate {uid version : String} {revision : ℕ} :
    (t.generation uid version).map Generation.state = some .validated →
    Effect t (.activate uid version revision) { t with cutovers := t.cutovers.insert uid (version, revision + 1) }
  | indexes {command : Command} {indexes : Dict String Index} : Effect t command { t with indexes := indexes }
  | enqueue {grant : Grant} {target : Target} {now : ℕ} {t' : Tables} :
    t.enqueue grant target now = some t' → Effect t (.enqueue grant target now) t'
  | purge {index : String} : Effect t (.purge index) (t.purge index)
  | commit {index : String} {model : EmbeddingModel} {rows : List (Chunk × List ℤ)} :
    Effect t (.commit index model rows) (t.commit index model rows)
  | defer {index : String} {batch : List Chunk} {error : String} :
    Effect t (.defer index batch error) (t.defer index batch error)
  | drop {index : String} {now : ℕ} : Effect t (.drop index now) (t.drop index now)
  | activateIndex {index : String} {revision : ℕ} :
    (∀ slot ∈ t.work.keys, slot.1 ≠ index) → ¬ t.Uncovered index →
    Effect t (.activateIndex index revision) { t with indexCutover := some (index, revision + 1) }
  | pass {consumer : Consumer} {uid : String} : t.Retained uid →
    Effect t (.apply consumer (t.cursors consumer + 1) uid) { t with
      applied := t.applied.insert (consumer, t.cursors consumer + 1) uid
      cursors := Function.update t.cursors consumer (t.cursors consumer + 1) }
  | consume {consumer : Consumer} {uid : String} : ¬ t.Retained uid →
    Effect t (.apply consumer (t.cursors consumer + 1) uid) { t.consume uid consumer with
      applied := t.applied.insert (consumer, t.cursors consumer + 1) uid
      cursors := Function.update t.cursors consumer (t.cursors consumer + 1) }
  | putPack {id body : String} {sessions : List String} : Effect t (.putPack id body sessions) (t.putPack id body sessions)
  | putLesson {id text : String} {support : List String} : Effect t (.putLesson id text support) (t.putLesson id text support)

variable {t' : Tables} {command : Command} {choice : Choice}

theorem effect_of_orKeep {u : Option Tables} {reply : Bool} (h : orKeep t u = some (t', reply))
    (hu : u = some t' → Effect t command t') : Effect t command t' := by
  cases u with
  | none   =>
    cases h
    exact .keep
  | some u =>
    cases h
    exact hu rfl

theorem effect_of_exec {reply : Reply command} (h : exec command choice t = some (t', reply)) : Effect t command t' := by
  cases command with
  | events                               => cases h; exact .read
  | register source                      =>
    refine effect_of_orKeep h fun hr => ?_
    obtain ⟨_, _, rfl, -⟩ := Tables.register_cases hr
    exact .register hr
  | ingest                               => exact effect_of_orKeep h .ingest
  | setState                             =>
    refine effect_of_orKeep h fun hs => ?_
    obtain ⟨_, rfl⟩ := Tables.setState_cases hs
    exact .setState
  | write uid policy fresh through readings =>
    simp only [exec] at h
    split at h
    case h_1 hw => cases h; exact .write hw
    case h_2    => cases h; exact .keep
  | mark                                 => exact effect_of_orKeep h .mark
  | activate                             =>
    refine effect_of_orKeep h fun ha => ?_
    obtain ⟨hstate, rfl⟩ := Tables.activate_cases ha
    exact .activate hstate
  | registerIndex                        =>
    refine effect_of_orKeep h fun hr => ?_
    obtain ⟨_, rfl⟩ := Tables.registerIndex_cases hr
    exact .indexes
  | setPaused                            =>
    refine effect_of_orKeep h fun hr => ?_
    obtain ⟨_, rfl⟩ := Tables.setPaused_cases hr
    exact .indexes
  | enqueue                              => exact effect_of_orKeep h .enqueue
  | purge                                => cases h; exact .purge
  | pending                              =>
    simp only [exec] at h
    split at h
    case isTrue  => cases h; exact .keep
    case isFalse => cases h
  | commit                               => cases h; exact .commit
  | defer                                => cases h; exact .defer
  | drop                                 => cases h; exact .drop
  | activateIndex                        =>
    refine effect_of_orKeep h fun ha => ?_
    obtain ⟨hw, hu, rfl⟩ := Tables.activateIndex_cases ha
    exact .activateIndex hw hu
  | apply                                =>
    refine effect_of_orKeep h fun ha => ?_
    obtain ⟨rfl, consumed, rfl, rfl⟩ := Tables.apply_cases ha
    split
    case isTrue hr  => exact .pass hr
    case isFalse hr => exact .consume hr
  | putPack                              => cases h; exact .putPack
  | putLesson                            => cases h; exact .putLesson
  | _                                    => cases h; exact .keep

-- What a step does to the tables.
theorem effect_step (domain : String) (w : World) (e : Move) : (step domain w e).shared = w.shared ∨
    ∃ id choice call command, e = .turn id choice ∧ w.At id call command ∧ Effect w.shared command (step domain w e).shared := by
  have hstep : (step domain w e).shared = w.shared ∨ ∃ id choice call command reply, e = .turn id choice ∧ w.At id call command ∧
      exec command choice w.shared = some ((step domain w e).shared, reply) := Interleaved.shared_step w e
  obtain hs | ⟨id, choice, call, command, reply, he, hat, hx⟩ := hstep
  · exact .inl hs
  · exact .inr ⟨id, choice, call, command, he, hat, effect_of_exec hx⟩

end Effects

section Reading

variable {policy : Policy} {parent : Option String} {readings : Readings}

theorem mem_of_lookup_foldl {chunks : List Chunk} {fresh : Dict ChunkId Chunk} {id : ChunkId} {c : Chunk}
    (h : (chunks.foldl (fun fresh chunk => fresh.insert chunk.id chunk) fresh).lookup id = some c) :
    fresh.lookup id = some c ∨ c.id = id ∧ c ∈ chunks := by
  induction chunks generalizing fresh with
  | nil             => exact .inl h
  | cons chunk rest ih =>
    obtain hl | ⟨hid, hm⟩ := ih h
    · by_cases he : id = chunk.id
      case pos =>
        subst he
        cases (Finmap.lookup_insert _).symm.trans hl
        exact .inr ⟨rfl, List.mem_cons_self⟩
      case neg => exact .inl ((Finmap.lookup_insert_of_ne _ he).symm.trans hl)
    · exact .inr ⟨hid, List.mem_cons_of_mem _ hm⟩

theorem lookup_chunksOf {id : ChunkId} {c : Chunk} (h : (chunksOf policy uid parent readings).lookup id = some c) :
    c.id = id ∧ ∃ reading ∈ readings, c ∈ chunkEvents policy uid parent reading.1 reading.2 := by
  obtain hn | ⟨hid, hm⟩ := mem_of_lookup_foldl h
  · simp at hn
  · exact ⟨hid, List.mem_flatMap.mp hm⟩

theorem of_forall₂ {T : String × List Event → Prop} {names : List String}
    (h : List.Forall₂ (fun name reading => reading.1 = name ∧ T reading) names readings) :
    readings.map Prod.fst = names ∧ ∀ reading ∈ readings, T reading := by
  induction h with
  | nil          => exact ⟨rfl, List.forall_mem_nil _⟩
  | cons hr _ ih => exact ⟨by rw [List.map_cons, ih.left, hr.left], List.forall_mem_cons.mpr ⟨hr.right, ih.right⟩⟩

-- What is true of a source's events as they are read and stays true, is true of everything that a reader has read.
theorem safe_readable {g : Rely Tables} {P : Tables → Command → Prop} {N : List String → Prop}
    {T : Tables → String → List Event → Prop} (ht : g.inv t)
    (hp : ∀ t, P t (.session uid) ∧ P t (.sources uid) ∧ ∀ generation, P t (.events uid generation))
    (hn : ∀ t, g.inv t → N ((t.sourcesOf uid).map Prod.fst))
    (hread : ∀ t generation, g.inv t → T (t.read uid generation) generation (t.events uid generation))
    (hstable : ∀ t t' generation events, g.rel t t' → T t generation events → T t' generation events) :
    (readable domain grant uid).Safe exec g P
      (fun t readings => N (readings.map Prod.fst) ∧ ∀ reading ∈ readings, T t reading.1 reading.2) t := by
  refine Steps.safe_ensure fun _ => Steps.safe_ask fun t₁ ht₁ hl₁ => ⟨(hp t₁).left, fun choice t₂ found hx ht₂ hl₂ => ?_⟩
  refine Steps.safe_ensure fun _ => Steps.safe_ask fun t₃ ht₃ hl₃ => ⟨(hp t₃).right.left, fun choice t₄ names hx ht₄ hl₄ => ?_⟩
  cases hx
  have hone (name : String) (t : Tables) : (source grant uid name).Safe exec g P (fun t reading =>
      reading.1 = name ∧ T t reading.1 reading.2) t := by
    refine Steps.safe_ask fun t₁ ht₁ hl₁ => ⟨(hp t₁).right.right name, fun choice t₂ events hx ht₂ hl₂ => ?_⟩
    cases hx
    refine Steps.safe_ensure fun _ => Steps.safe_pure.mpr fun t₃ _ hl₃ => ⟨rfl, ?_⟩
    exact hstable _ _ _ _ hl₃ (hread t₁ name ht₁)
  have hall : (Steps.each (source grant uid) ((t₃.sourcesOf uid).map Prod.fst)).Safe exec g P
      (fun t readings => List.Forall₂ (fun name reading => reading.1 = name ∧ T t reading.1 reading.2)
        ((t₃.sourcesOf uid).map Prod.fst) readings) t₃ :=
    Steps.safe_each ht₄ (fun _ _ _ _ hl h => ⟨h.left, hstable _ _ _ _ hl h.right⟩) fun name _ t _ _ => hone name t
  refine hall.imp fun t readings _ h => ?_
  obtain ⟨hnames, hreadings⟩ := of_forall₂ h
  exact ⟨hnames ▸ hn t₃ ht₃, hreadings⟩

end Reading

end SearchIndex
