import ClaimGuard.AuditReplay
import ClaimGuard.Backlog
import ClaimGuard.Burstiness
import ClaimGuard.CanonicalInvariant
import ClaimGuard.ChainValid
import ClaimGuard.ClaimCount
import ClaimGuard.ContactRings
import ClaimGuard.DecisionAgreement
import ClaimGuard.ErasedValues
import ClaimGuard.ExactlyOnce
import ClaimGuard.FlagCleared
import ClaimGuard.GenRings
import ClaimGuard.GeneratorRuns
import ClaimGuard.Grounding
import ClaimGuard.HeldClaims
import ClaimGuard.HeldOutRings
import ClaimGuard.Jsonb
import ClaimGuard.NarrativeFailures
import ClaimGuard.NearDuplicates
import ClaimGuard.NeverSkipped
import ClaimGuard.OutboxPublisher
import ClaimGuard.Prompt
import ClaimGuard.PushLocality
import ClaimGuard.PushWork
import ClaimGuard.Recovery
import ClaimGuard.ReviewBand
import ClaimGuard.SameSeeds
import ClaimGuard.ScoresArrive
import ClaimGuard.Sessions
import ClaimGuard.ShopWholeWords
import ClaimGuard.TemporalSplit
import ClaimGuard.TwoHop
import ClaimGuard.Wire
