import AbstractBFT.Common.Merged
import AbstractBFT.Chain.TotalOrder
import AbstractBFT.Aardvark.Client
import AbstractBFT.Aardvark.NewViewSafety
import AbstractBFT.Aardvark.SwitchPoint
import AbstractBFT.Aardvark.RequestAuth
import AbstractBFT.Common.SwitchNotice
import AbstractBFT.Chain.Renumber
import AbstractBFT.Quorum.Replica
import AbstractBFT.ZLight.Order
import AbstractBFT.ZLight.Frozen
import AbstractBFT.Ring.Order
import AbstractBFT.Ring.Bookkeeping
import AbstractBFT.Pbft.Aborts
import AbstractBFT.Pbft.ReadOnly
import AbstractBFT.Aardvark.Muting
import AbstractBFT.Aardvark.Vouching
import AbstractBFT.Pbft.Transfer
import AbstractBFT.Pbft.CertCount
import AbstractBFT.Chain.Waiting
import AbstractBFT.Ring.Queue
import AbstractBFT.ZLight.Flag
import AbstractBFT.Common.AbortLocks
import AbstractBFT.Pbft.StableEstimator
import AbstractBFT.Aardvark.CertificateRuns
import AbstractBFT.Pbft.DigestSum
import AbstractBFT.Chain.OwnDigest
import AbstractBFT.Chain.Messages
import AbstractBFT.Common.Framing
import AbstractBFT.Ring.Fairness
import AbstractBFT.Ring.CheckpointStore
import AbstractBFT.Aardvark.Collected
import AbstractBFT.Pbft.Mirror
