import AuditTrail.Trail
import AuditTrail.Watch.Console
import AuditTrail.Proofs.Chain.Linked
import AuditTrail.Proofs.Chain.Verification
import AuditTrail.Proofs.Appender.Session
import AuditTrail.Proofs.Appender.MemoryChain
import AuditTrail.Proofs.Decimal.DigitText
import AuditTrail.Proofs.Time.Dates
import AuditTrail.Proofs.Canonical.Spelling
import AuditTrail.Proofs.Time.Stamps
import AuditTrail.Proofs.Decimal.ShortestDigits
import AuditTrail.Proofs.Canonical.Scanning
import AuditTrail.Proofs.Chain.HashInput
import AuditTrail.Proofs.Chain.TamperEvidence
import AuditTrail.Proofs.Json.Numbers
import AuditTrail.Proofs.Json.Reading
import AuditTrail.Proofs.Json.Consumed
import AuditTrail.Proofs.Text.CutOctets
import AuditTrail.Proofs.Time.StampReading
import AuditTrail.Proofs.Canonical.Shape
import AuditTrail.Proofs.Storage.Records
import AuditTrail.Proofs.Storage.LogLines
import AuditTrail.Proofs.Storage.TornLog
import AuditTrail.Proofs.Chain.Verdict
import AuditTrail.Proofs.Decimal.Nearest
import AuditTrail.Proofs.Decimal.ReadBack
import AuditTrail.Proofs.Canonical.Fixpoint
import AuditTrail.Proofs.Storage.RoundTrip
import AuditTrail.Proofs.Storage.Answers
import AuditTrail.Proofs.Storage.Questions
import AuditTrail.Proofs.Storage.BucketLog
import AuditTrail.Proofs.Storage.ServiceCalls
import AuditTrail.Proofs.Storage.EntryKeys
import AuditTrail.Proofs.Storage.BucketReads
import AuditTrail.Proofs.Storage.Misfits
import AuditTrail.Proofs.Storage.KeySightings
import AuditTrail.Proofs.Storage.SharedBucket
import AuditTrail.Proofs.Storage.ThreeStores
import AuditTrail.Proofs.Appender.Tickets
import AuditTrail.Proofs.Appender.PersistedChain
import AuditTrail.Proofs.Appender.Restarts
import AuditTrail.Proofs.Canonical.NumberTexts
import AuditTrail.Proofs.Canonical.SameContent
import AuditTrail.Proofs.Canonical.Injective
import AuditTrail.Proofs.Chain.FirstBreak
import AuditTrail.Proofs.Appender.Damage
import AuditTrail.Proofs.Chain.Windows
import AuditTrail.Proofs.Chain.Obstacles
import AuditTrail.Proofs.Canonical.Copying
import AuditTrail.Proofs.Appender.Ledger
import AuditTrail.Proofs.Appender.Takeover
import AuditTrail.Proofs.Appender.LiveReads
import AuditTrail.Proofs.Appender.Steps
import AuditTrail.Proofs.Appender.Tallies
import AuditTrail.Proofs.Appender.Deeds
import AuditTrail.Proofs.Appender.Crew
import AuditTrail.Proofs.Appender.Custody
import AuditTrail.Proofs.Appender.Errands
import AuditTrail.Proofs.Appender.QueueOrder
import AuditTrail.Proofs.Appender.Figures
import AuditTrail.Proofs.Appender.Bookings
import AuditTrail.Proofs.Appender.RisingEntries
import AuditTrail.Proofs.Appender.Balance
import AuditTrail.Proofs.Storage.LogGrowth
import AuditTrail.Proofs.Time.StampOrder
import AuditTrail.Proofs.Appender.Refusals
import AuditTrail.Proofs.Appender.Closed
import AuditTrail.Proofs.Storage.KeyOrder
import AuditTrail.Proofs.Chain.RangeBounds
import AuditTrail.Proofs.Appender.SharpClocks
import AuditTrail.Proofs.Appender.Punctual
import AuditTrail.Proofs.Appender.Almanacs
import AuditTrail.Proofs.Appender.WholeMillis
import AuditTrail.Proofs.Watch.Emissions
import AuditTrail.Proofs.Canonical.StoredForm
import AuditTrail.Proofs.Decimal.IntegerTexts
import AuditTrail.Proofs.Decimal.Numerals
import AuditTrail.Proofs.Decimal.Notation
import AuditTrail.Proofs.Canonical.FloatNotation
import AuditTrail.Proofs.Service.Acceptance
